/-
# `BitswapAuth.ProviderQueryManager.Clients` — what the clients of a query read

`FindProvidersAsync` has the manager register a channel for the caller, and `receiveProviders`
then stands between that channel and the one the caller reads: it takes the providers as they
come, so that the manager never waits for the caller, and hands them out one by one.

    joining      the caller waits for the answer to its message
    receiving    the loop of receiveProviders
    cancelling   the session's context is done: cancelProviderRequest
    ended        the channel that the caller reads is closed

The providers found so far are in the answer, and the later ones are sent.  So what has been read,
what has been received and what the handler under way still owes are together the list of the
query (`Held`), however late the client has joined; what was read is a prefix of it.

When the manager's context is done, a handler may give up in the middle of its sends, with the
provider already in the list, and the loop may take another message before it ends.  But the
channels between the handlers and the others have no buffer, and either end is in a select with
that context: neither end waits any more once it is done, so nothing is handed over.  A client
that was passed over keeps its prefix.

Here are the clients, the invariant, and the steps between two messages: those of a client, and of
the handler under way.  The messages are in `ProviderQueryManager.Delivery`.
-/
import BitswapAuth.ProviderQueryManager.Loop

namespace BitswapAuth

open Lib

/-- Where the client side of a query is. -/
inductive ClientPhase where
  | joining
  | receiving
  | cancelling
  | ended
  deriving DecidableEq

/-- The client side of a query: `incoming` says that `incomingProviders` is not nil, `read` is
what the caller has read. -/
structure QueryClient where
  query : FindProviderRequest
  phase : ClientPhase
  incoming : Bool
  receivedProviders : List PeerID
  read : List PeerID
  sessionDone : Bool
  cancelSent : Bool

namespace QueryClient

/-- A caller whose message is being handled. -/
def joining (r : FindProviderRequest) : QueryClient :=
  ⟨r, .joining, false, [], [], false, false⟩

/-- The session's context is done; a case of a select is chosen, or the loop ends. -/
inductive Act where
  | cancelSession
  | managerDone
  | sessionDone
  | incomingClosed
  | outgoing
  | leave
  | sendCancel

/-- The answer to a new query has come. -/
def answered (c : QueryClient) (providersSoFar : List PeerID) : QueryClient :=
  { c with phase := .receiving, incoming := true, receivedProviders := providersSoFar }

/-- A provider is taken from the channel; `none` if nobody waits for one. -/
def accept (c : QueryClient) (p : PeerID) : Option QueryClient :=
  match c.phase with
  | .receiving => if c.incoming then
      some { c with receivedProviders := c.receivedProviders ++ [p] } else none
  -- clear out any remaining providers
  | .cancelling => some c
  | .joining | .ended => none

/-- A step of the client, if it is possible; `closed` says that its channel has been closed. -/
def step (c : QueryClient) (ctxDone closed : Bool) : Act → QueryClient
  | .cancelSession => { c with sessionDone := true }
  | .managerDone => if ctxDone then { c with phase := .ended } else c
  | .sessionDone =>
      if c.sessionDone ∧ c.phase = .receiving then
        { c with phase := if c.incoming then .cancelling else .ended }
      else c
  | .incomingClosed =>
      if closed then
        match c.phase with
        | .receiving => { c with incoming := false }
        | .cancelling => { c with phase := .ended }
        | .joining | .ended => c
      else c
  | .outgoing =>
      match c.phase, c.receivedProviders with
      | .receiving, p :: ps => { c with receivedProviders := ps, read := c.read ++ [p] }
      | _, _ => c
  | .leave =>
      if c.phase = .receiving ∧ c.receivedProviders = [] ∧ c.incoming = false then
        { c with phase := .ended }
      else c
  | .sendCancel => if c.phase = .cancelling then { c with cancelSent := true } else c

/-- What a step of a client can do. -/
inductive Steps (ctxDone closed : Bool) (c : QueryClient) : QueryClient → Prop
  | stay : Steps ctxDone closed c c
  | cancelSession : Steps ctxDone closed c { c with sessionDone := true }
  | managerDone (hd : ctxDone = true) : Steps ctxDone closed c { c with phase := .ended }
  | sessionDone (hs : c.sessionDone = true) (hp : c.phase = .receiving) {phase : ClientPhase}
      (hnew : phase = .cancelling ∨ phase = .ended) :
      Steps ctxDone closed c { c with phase := phase }
  | incomingClosed (hb : closed = true) (hp : c.phase = .receiving) :
      Steps ctxDone closed c { c with incoming := false }
  | cleared (hp : c.phase = .cancelling) : Steps ctxDone closed c { c with phase := .ended }
  | outgoing {p : PeerID} {ps : List PeerID} (hp : c.phase = .receiving)
      (hps : c.receivedProviders = p :: ps) :
      Steps ctxDone closed c { c with receivedProviders := ps, read := c.read ++ [p] }
  | leave (hp : c.phase = .receiving) (hps : c.receivedProviders = [])
      (hin : c.incoming = false) : Steps ctxDone closed c { c with phase := .ended }
  | sendCancel (hp : c.phase = .cancelling) : Steps ctxDone closed c { c with cancelSent := true }

theorem steps_step (c : QueryClient) (ctxDone closed : Bool) (a : Act) :
    c.Steps ctxDone closed (c.step ctxDone closed a) := by
  cases a with
  | cancelSession => exact .cancelSession
  | managerDone =>
      rw [step]
      split
      · rename_i hd
        exact .managerDone hd
      · exact .stay
  | sessionDone =>
      rw [step]
      split
      · rename_i h
        refine .sessionDone h.1 h.2 ?_
        split
        · exact .inl rfl
        · exact .inr rfl
      · exact .stay
  | incomingClosed =>
      rw [step]
      split
      · rename_i hb
        split
        · rename_i hp
          exact .incomingClosed hb hp
        · rename_i hp
          exact .cleared hp
        · exact .stay
        · exact .stay
      · exact .stay
  | outgoing =>
      rw [step]
      split
      · rename_i p ps hp hps
        exact .outgoing hp hps
      · exact .stay
  | leave =>
      rw [step]
      split
      · rename_i h
        exact .leave h.1 h.2.1 h.2.2
      · exact .stay
  | sendCancel =>
      rw [step]
      split
      · rename_i hp
        exact .sendCancel hp
      · exact .stay

section Steps

variable {ctxDone closed : Bool} {c c' : QueryClient}

theorem Steps.query (h : c.Steps ctxDone closed c') : c'.query = c.query := by
  cases h <;> rfl

/-- Nobody begins to receive on their own. -/
theorem Steps.receiving (h : c.Steps ctxDone closed c') (hp : c'.phase = .receiving) :
    c.phase = .receiving := by
  cases h with
  | stay => exact hp
  | cancelSession => exact hp
  | managerDone hd => cases hp
  | sessionDone hs hr hnew => exact hr
  | incomingClosed hb hr => exact hr
  | cleared hc => cases hp
  | outgoing hr hps => exact hr
  | leave hr hps hin => exact hr
  | sendCancel hc => exact hp

theorem Steps.cancelled (h : c.Steps ctxDone closed c')
    (hp : c.phase = .cancelling ∨ c.phase = .ended) :
    c'.phase = .cancelling ∨ c'.phase = .ended := by
  have hno : c.phase ≠ .receiving := by
    rcases hp with hp | hp <;> simp [hp]
  cases h with
  | stay => exact hp
  | cancelSession => exact hp
  | managerDone hd => exact .inr rfl
  | sessionDone hs hr hnew => exact hnew
  | incomingClosed hb hr => exact absurd hr hno
  | cleared hc => exact .inr rfl
  | outgoing hr hps => exact absurd hr hno
  | leave hr hps hin => exact .inr rfl
  | sendCancel hc => exact hp

theorem Steps.sentCancel (h : c.Steps ctxDone closed c') (hno : c.cancelSent = false)
    (hsent : c'.cancelSent = true) : c'.phase = .cancelling := by
  cases h with
  | sendCancel hc => exact hc
  | _ => cases hno.symm.trans hsent

end Steps

end QueryClient

/-- The loop with the clients, by the channels they listen on, and the cancel messages on their
way.  `found` keeps the list of each query, by its context, when the query is in the table no
more. -/
structure QueryClients where
  loop : QueryLoop
  clients : GoMap ListenerID QueryClient
  cancels : List (ListenerID × Cid)
  found : ContextID → List PeerID

namespace QueryClients

open QueryEffect ProviderQueryManager

inductive Act where
  | loop (a : QueryLoop.Act)
  | client (l : ListenerID) (a : QueryClient.Act)

def start : QueryClients := ⟨.start, ∅, [], fun _ => []⟩

/-- The list of the query in progress for a CID is noted. -/
def record (found : ContextID → List PeerID) (pqm : ProviderQueryManager) (k : Cid) :
    ContextID → List PeerID :=
  match pqm.status k with
  | some st => fun c => if c = st.ctx then st.providersSoFar else found c
  | none => found

/-- The loop handles a message about a CID. -/
def handle (s : QueryClients) (k : Cid) (a : QueryLoop.Act) : QueryClients :=
  { s with loop := s.loop.step a, found := record s.found (s.loop.step a).pqm k }

/-- The caller whose message is handled waits for the answer, under the channel it will get. -/
def join (s : QueryClients) (k : Cid) : QueryClients :=
  let s' := s.handle k (.newQuery k)
  match s'.loop.pqm.status k with
  | some st =>
      { s' with clients := s'.clients.insert s.loop.pqm.nextListener (.joining ⟨k, st.ctx⟩) }
  | none => s'

/-- The providers that the effects send on a channel. -/
def owed (l : ListenerID) : List QueryEffect → List PeerID :=
  List.filterMap fun | .send l' p => if l' = l then some p else none | _ => none

/-- The effect is a send in a select with the manager's context, on a channel without a buffer
whose other end is in such a select too. -/
def HandsOver : QueryEffect → Prop
  | .find _ | .answer _ _ | .send _ _ => True
  | _ => False

instance : DecidablePred HandsOver
  | .find _ | .answer _ _ | .send _ _ => .isTrue trivial
  | .listen _ _ | .close _ | .cancelFn _ => .isFalse id

/-- The handler under way does the next thing; if somebody has to be ready for it, they are.
Nobody is when the manager's context is done: a select with it does not wait any more. -/
def perform (s : QueryClients) : QueryClients :=
  if s.loop.ctxDone = true ∧ ∃ e ∈ s.loop.todo.head?, HandsOver e then s
  else
    match s.loop.todo with
    | .answer ps l :: _ =>
        match s.clients.lookup l with
        | some c =>
            if c.phase = .joining then
              { s with loop := s.loop.perform, clients := s.clients.insert l (c.answered ps) }
            else s
        | none => s
    | .send l p :: _ =>
        match (s.clients.lookup l).bind (·.accept p) with
        | some c => { s with loop := s.loop.perform, clients := s.clients.insert l c }
        | none => s
    | _ => { s with loop := s.loop.perform }

/-- The handler under way gives up. -/
def giveUp (s : QueryClients) : QueryClients :=
  if s.loop.ctxDone then { s with loop := s.loop.giveUp } else s

/-- A step of the client; in `cancelProviderRequest` it sends its message once. -/
def clientStep (s : QueryClients) (l : ListenerID) (a : QueryClient.Act) (c : QueryClient) :
    QueryClients :=
  let c' := c.step s.loop.ctxDone (decide (l ∈ closes s.loop.done)) a
  { s with
    clients := s.clients.insert l c'
    cancels := if c.cancelSent = false ∧ c'.cancelSent = true then s.cancels ++ [(l, c.query.k)]
      else s.cancels }

def step (s : QueryClients) : Act → QueryClients
  | .loop (.newQuery k) => if s.loop.Idle then s.join k else s
  | .loop (.received k p o) => if s.loop.Idle then s.handle k (.received k p o) else s
  | .loop (.finished k o) => if s.loop.Idle then s.handle k (.finished k o) else s
  | .loop (.cancel l k) =>
      if s.loop.Idle ∧ (l, k) ∈ s.cancels then
        { s.handle k (.cancel l k) with cancels := s.cancels.erase (l, k) }
      else s
  | .loop .perform => s.perform
  | .loop .giveUp => s.giveUp
  | .loop .cancelContext => { s with loop := s.loop.step .cancelContext }
  | .loop (.shutdown o ol) => { s with loop := s.loop.step (.shutdown o ol) }
  | .client l a =>
      match s.clients.lookup l with
      | some c => s.clientStep l a c
      | none => s

/-! ## What is owed -/

@[simp] theorem owed_nil {l : ListenerID} : owed l [] = [] := rfl

theorem owed_cons_of_not_uses {l : ListenerID} {e : QueryEffect} {es : List QueryEffect}
    (h : ¬ e.Uses l) : owed l (e :: es) = owed l es := by
  cases e with
  | send l' p =>
      have hne : ¬ l' = l := h
      simp [owed, hne]
  | _ => rfl

theorem owed_of_not_uses {l : ListenerID} : ∀ {es : List QueryEffect}, (∀ e ∈ es, ¬ e.Uses l) →
    owed l es = []
  | [], _ => rfl
  | e :: es, h => by
      rw [owed_cons_of_not_uses (h e List.mem_cons_self)]
      exact owed_of_not_uses fun e he => h e (List.mem_cons_of_mem _ he)

/-- Effects that only end things owe nobody anything. -/
theorem owed_of_ends {l : ListenerID} : ∀ {es : List QueryEffect}, (∀ e ∈ es, e.Ends) →
    owed l es = []
  | [], _ => rfl
  | e :: es, h => by
      have ih := owed_of_ends (l := l) fun e he => h e (List.mem_cons_of_mem _ he)
      cases e with
      | send l' p => exact absurd (h _ List.mem_cons_self) id
      | _ => exact ih

@[simp] theorem owed_send_cons {l : ListenerID} {p : PeerID} {es : List QueryEffect} :
    owed l (.send l p :: es) = p :: owed l es := by
  simp [owed]

/-- A provider is sent to each listener once. -/
theorem owed_sends {l : ListenerID} {p : PeerID} : ∀ {ls : List ListenerID}, ls.Nodup →
    owed l (ls.map (.send · p)) = if l ∈ ls then [p] else []
  | [], _ => rfl
  | l' :: ls, h => by
      obtain ⟨hnot, hnd⟩ := List.nodup_cons.mp h
      have ih := owed_sends (l := l) (p := p) hnd
      rw [List.map_cons]
      by_cases hl : l' = l
      · subst hl
        rw [owed_send_cons, ih, if_neg hnot, if_pos List.mem_cons_self]
      · rw [owed_cons_of_not_uses (show ¬ (QueryEffect.send l' p).Uses l from hl), ih]
        have hiff : l ∈ l' :: ls ↔ l ∈ ls := by simp [Ne.symm hl]
        simp only [hiff]

/-! ## What holds throughout -/

/-- A client that receives: its query is in progress and it listens, or the query has ended and
its channel is closed or about to be.  What it has read and received is a prefix of the list of
the query, and together with what it is owed the whole of it while the manager's context is not
done. -/
structure Held (s : QueryClients) (l : ListenerID) (c : QueryClient) : Prop where
  place : s.loop.pqm.Listed l ∨
    (¬ s.loop.pqm.InProgress c.query.ctx ∧ .close l ∈ s.loop.log) ∨ s.loop.stopped = true
  inOrder : c.read ++ c.receivedProviders <+: s.found c.query.ctx
  whole : s.loop.ctxDone = false →
    c.read ++ c.receivedProviders ++ owed l s.loop.todo = s.found c.query.ctx
  closed : c.incoming = false → .close l ∈ s.loop.done

/-- A client, in whatever phase. -/
structure Keeps (s : QueryClients) (l : ListenerID) (c : QueryClient) : Prop where
  ctx : c.query.ctx < s.loop.pqm.nextContext
  inOrder : c.read <+: s.found c.query.ctx
  joining : c.phase = .joining → c.read = []
  receiving : c.phase = .receiving → s.Held l c
  cancelling : c.phase = .cancelling → c.sessionDone = true
  ended : c.phase = .ended → (c.read = s.found c.query.ctx ∧ ¬ s.loop.pqm.InProgress c.query.ctx) ∨
    c.sessionDone = true ∨ s.loop.ctxDone = true

structure Inv (s : QueryClients) : Prop where
  loop : s.loop.Inv
  found : ∀ k st, s.loop.pqm.status k = some st → s.found st.ctx = st.providersSoFar
  owner : ∀ k st l c, s.loop.pqm.status k = some st → l ∈ st.listeners →
    s.clients.lookup l = some c → c.query = ⟨k, st.ctx⟩
  known : ∀ l ∈ s.clients, l < s.loop.pqm.nextListener
  finding : ∀ r, .find r ∈ s.loop.todo → s.found r.ctx = [] ∧
    ∀ l c, s.clients.lookup l = some c → c.query.ctx = r.ctx → c.phase ≠ .receiving
  answer : ∀ ps l, .answer ps l ∈ s.loop.todo → s.loop.pqm.Listed l ∧
    ∀ c, s.clients.lookup l = some c → ps = s.found c.query.ctx
  cancels : ∀ e ∈ s.cancels, e.1 < s.loop.pqm.nextListener ∧
    ∀ c, s.clients.lookup e.1 = some c → c.phase = .cancelling ∨ c.phase = .ended
  clients : ∀ l c, s.clients.lookup l = some c → s.Keeps l c

theorem inv_start : start.Inv where
  loop := QueryLoop.inv_start
  found _ _ h := absurd h status_new
  owner _ _ _ _ h := absurd h status_new
  known _ h := absurd h (AList.notMem_empty _)
  finding _ h := absurd h List.not_mem_nil
  answer _ _ h := absurd h List.not_mem_nil
  cancels _ h := absurd h List.not_mem_nil
  clients _ _ h := by cases h

variable {s : QueryClients}

/-- A client that is left alone keeps what it has if the list of its query only grows, and does
not grow any more when the query has ended. -/
theorem Keeps.move {s' : QueryClients} {l : ListenerID} {c : QueryClient} (h : s.Keeps l c)
    (hnext : s.loop.pqm.nextContext ≤ s'.loop.pqm.nextContext)
    (hctx : s.loop.ctxDone = true → s'.loop.ctxDone = true)
    (hgrows : s.found c.query.ctx <+: s'.found c.query.ctx)
    (hstill : ¬ s.loop.pqm.InProgress c.query.ctx →
      s'.found c.query.ctx = s.found c.query.ctx ∧ ¬ s'.loop.pqm.InProgress c.query.ctx)
    (hheld : c.phase = .receiving → s.Held l c → s'.Held l c) : s'.Keeps l c where
  ctx := Nat.lt_of_lt_of_le h.ctx hnext
  inOrder := h.inOrder.trans hgrows
  joining := h.joining
  receiving hp := hheld hp (h.receiving hp)
  cancelling := h.cancelling
  ended hp := by
    rcases h.ended hp with ⟨hread, hgone⟩ | hs | hd
    · obtain ⟨hsame, hgone'⟩ := hstill hgone
      exact .inl ⟨hread.trans hsame.symm, hgone'⟩
    · exact .inr (.inl hs)
    · exact .inr (.inr (hctx hd))

theorem Keeps.of_eq {s' : QueryClients} {l : ListenerID} {c : QueryClient} (h : s.Keeps l c)
    (hloop : s'.loop = s.loop) (hfound : s'.found = s.found) : s'.Keeps l c := by
  refine h.move ?_ ?_ ?_ ?_ fun _ hheld => ⟨?_, ?_, ?_, ?_⟩
  · rw [hloop]
  · rw [hloop]
    exact id
  · simp only [hfound, List.prefix_refl]
  · rw [hloop, hfound]
    exact fun hgone => ⟨rfl, hgone⟩
  · rw [hloop]
    exact hheld.place
  · rw [hfound]
    exact hheld.inOrder
  · rw [hloop, hfound]
    exact hheld.whole
  · rw [hloop]
    exact hheld.closed

/-! ## The steps of a client -/

section ClientSteps

variable {l : ListenerID} {c : QueryClient}

/-- The client hands out the next provider. -/
theorem Held.outgoing (h : s.Held l c) {p : PeerID} {ps : List PeerID}
    (hps : c.receivedProviders = p :: ps) :
    s.Held l { c with receivedProviders := ps, read := c.read ++ [p] } := by
  have hmove : c.read ++ [p] ++ ps = c.read ++ c.receivedProviders := by
    rw [hps, List.append_assoc, List.singleton_append]
  refine ⟨h.place, ?_, fun hctx => ?_, h.closed⟩
  · show c.read ++ [p] ++ ps <+: _
    rw [hmove]
    exact h.inOrder
  · show c.read ++ [p] ++ ps ++ _ = _
    rw [hmove]
    exact h.whole hctx

/-- The client's channel is closed and it has handed out everything: it has the whole list. -/
theorem Keeps.leave (h : s.Keeps l c) (hloop : s.loop.Inv) (hphase : c.phase = .receiving)
    (hps : c.receivedProviders = []) (hin : c.incoming = false) :
    (c.read = s.found c.query.ctx ∧ ¬ s.loop.pqm.InProgress c.query.ctx) ∨
      c.sessionDone = true ∨ s.loop.ctxDone = true := by
  have hheld := h.receiving hphase
  have hclosed := hheld.closed hin
  have howed : owed l s.loop.todo = [] := by
    refine owed_of_not_uses fun e he huse => ?_
    exact (List.pairwise_append.mp hloop.respects).2.2 _ hclosed e he l rfl huse
  by_cases hctx : s.loop.ctxDone = true
  · exact .inr (.inr hctx)
  · have hstop : s.loop.stopped = false := by
      by_contra hs
      exact hctx (hloop.stopped (by simpa using hs))
    have hwhole := hheld.whole (Bool.eq_false_iff.mpr hctx)
    rw [hps, howed, List.append_nil, List.append_nil] at hwhole
    refine .inl ⟨hwhole, ?_⟩
    rcases hheld.place with hl | hl | hs
    · exact absurd (List.mem_append_left _ hclosed) (hloop.isOpen hstop l hl)
    · exact hl.1
    · cases hstop.symm.trans hs

theorem Keeps.steps (h : s.Keeps l c) (hloop : s.loop.Inv) {closed : Bool} {c' : QueryClient}
    (hclosed : closed = true → .close l ∈ s.loop.done)
    (hc' : c.Steps s.loop.ctxDone closed c') : s.Keeps l c' := by
  -- a step to another phase keeps what has been read
  have hphase : ∀ phase : ClientPhase, phase = .cancelling ∨ phase = .ended →
      (phase = .cancelling → c.sessionDone = true) →
      (phase = .ended → (c.read = s.found c.query.ctx ∧ ¬ s.loop.pqm.InProgress c.query.ctx) ∨
        c.sessionDone = true ∨ s.loop.ctxDone = true) → s.Keeps l { c with phase := phase } := by
    intro phase hp hcancelling hended
    refine ⟨h.ctx, h.inOrder, fun hj => ?_, fun hr => ?_, hcancelling, hended⟩
    · rcases hp with rfl | rfl <;> cases hj
    · rcases hp with rfl | rfl <;> cases hr
  cases hc' with
  | stay => exact h
  | cancelSession =>
      refine ⟨h.ctx, h.inOrder, h.joining, fun hr => ?_, fun _ => rfl, fun _ => .inr (.inl rfl)⟩
      have hheld := h.receiving hr
      exact ⟨hheld.place, hheld.inOrder, hheld.whole, hheld.closed⟩
  | managerDone hd => exact hphase .ended (.inr rfl) (fun he => by cases he) fun _ => .inr (.inr hd)
  | sessionDone hs hr hnew => exact hphase _ hnew (fun _ => hs) fun _ => .inr (.inl hs)
  | incomingClosed hb hr =>
      have hheld := h.receiving hr
      exact ⟨h.ctx, h.inOrder, h.joining,
        fun _ => ⟨hheld.place, hheld.inOrder, hheld.whole, fun _ => hclosed hb⟩, h.cancelling,
        h.ended⟩
  | cleared hc =>
      exact hphase .ended (.inr rfl) (fun he => by cases he) fun _ => .inr (.inl (h.cancelling hc))
  | outgoing hr hps =>
      have hheld := (h.receiving hr).outgoing hps
      refine ⟨h.ctx, (List.prefix_append _ _).trans hheld.inOrder, fun hj => ?_, fun _ => hheld,
        h.cancelling, fun he => ?_⟩
      · cases hr.symm.trans hj
      · cases hr.symm.trans he
  | leave hr hps hin =>
      exact hphase .ended (.inr rfl) (fun he => by cases he) fun _ => h.leave hloop hr hps hin
  | sendCancel hc =>
      refine ⟨h.ctx, h.inOrder, h.joining, fun hr => ?_, h.cancelling, h.ended⟩
      cases hc.symm.trans hr

/-- The table stays, no request or answer is added to what is to be done, and every client comes
from one of the same query that has not begun to receive, unless no request is to be passed on,
and has not gone back after a cancel. -/
theorem Inv.replace (h : s.Inv) {loop : QueryLoop} {clients : GoMap ListenerID QueryClient}
    (hloop : loop.Inv) (hpqm : loop.pqm = s.loop.pqm)
    (hfind : ∀ r, .find r ∈ loop.todo → .find r ∈ s.loop.todo)
    (hanswer : ∀ ps l, .answer ps l ∈ loop.todo → .answer ps l ∈ s.loop.todo)
    (hold : ∀ l c', clients.lookup l = some c' → ∃ c, s.clients.lookup l = some c ∧
      c'.query = c.query ∧
      (c'.phase = .receiving → c.phase = .receiving ∨ ∀ r, .find r ∉ loop.todo) ∧
      (c.phase = .cancelling ∨ c.phase = .ended → c'.phase = .cancelling ∨ c'.phase = .ended) ∧
      ({ s with loop := loop, clients := clients } : QueryClients).Keeps l c') :
    ({ s with loop := loop, clients := clients } : QueryClients).Inv := by
  refine ⟨hloop, fun k st hst => ?_, fun k st l c' hst hl hc' => ?_, fun l hl => ?_,
    fun r hr => ⟨(h.finding r (hfind r hr)).1, fun l c' hc' hq hp => ?_⟩,
    fun ps l hps => ⟨?_, fun c' hc' => ?_⟩, fun e he => ⟨?_, fun c' hc' => ?_⟩,
    fun l c' hc' => ?_⟩
  · exact h.found k st (hpqm ▸ hst)
  · obtain ⟨c, hc, hq, -⟩ := hold l c' hc'
    rw [hq]
    exact h.owner k st l c (hpqm ▸ hst) hl hc
  · obtain ⟨c', hc'⟩ := GoMap.mem_iff_lookup.mp hl
    obtain ⟨c, hc, -⟩ := hold l c' hc'
    show l < loop.pqm.nextListener
    rw [hpqm]
    exact h.known l (GoMap.mem_of_lookup hc)
  · obtain ⟨c, hc, hq', hp', -⟩ := hold l c' hc'
    rcases hp' hp with hp' | hno
    · exact (h.finding r (hfind r hr)).2 l c hc (hq' ▸ hq) hp'
    · exact hno r hr
  · show loop.pqm.Listed l
    rw [hpqm]
    exact (h.answer ps l (hanswer ps l hps)).1
  · obtain ⟨c, hc, hq, -⟩ := hold l c' hc'
    rw [hq]
    exact (h.answer ps l (hanswer ps l hps)).2 c hc
  · show e.1 < loop.pqm.nextListener
    rw [hpqm]
    exact (h.cancels e he).1
  · obtain ⟨c, hc, -, -, hcan, -⟩ := hold e.1 c' hc'
    exact hcan ((h.cancels e he).2 c hc)
  · obtain ⟨c, -, -, -, -, hk⟩ := hold l c' hc'
    exact hk

theorem inv_clientStep (h : s.Inv) (a : QueryClient.Act) (hc : s.clients.lookup l = some c) :
    (s.clientStep l a c).Inv := by
  have hsteps := c.steps_step s.loop.ctxDone (decide (l ∈ closes s.loop.done)) a
  have hclosed : decide (l ∈ closes s.loop.done) = true → .close l ∈ s.loop.done := fun hd =>
    mem_closes.mp (of_decide_eq_true hd)
  have hset : ({ s with clients := (s.clientStep l a c).clients } : QueryClients).Inv := by
    refine h.replace h.loop rfl (fun _ hr => hr) (fun _ _ hps => hps) fun l' c' hc' => ?_
    rcases GoMap.lookup_insert_eq_some.mp hc' with ⟨rfl, rfl⟩ | ⟨-, hc'⟩
    · exact ⟨c, hc, hsteps.query, fun hp => .inl (hsteps.receiving hp), hsteps.cancelled,
        ((h.clients l' c hc).steps h.loop hclosed hsteps).of_eq rfl rfl⟩
    · exact ⟨c', hc', rfl, .inl, id, (h.clients l' c' hc').of_eq rfl rfl⟩
  refine ⟨hset.loop, hset.found, hset.owner, hset.known, hset.finding, hset.answer,
    fun e he => ?_, fun l' c₁ hc₁ => (hset.clients l' c₁ hc₁).of_eq rfl rfl⟩
  rw [clientStep] at he
  dsimp only at he
  split at he
  · rename_i hsent
    rcases List.mem_append.mp he with he | he
    · exact hset.cancels e he
    · rw [List.mem_singleton.mp he]
      refine ⟨h.known l (GoMap.mem_of_lookup hc), fun c₁ hc₁ => .inl ?_⟩
      obtain rfl := Option.some.inj ((AList.lookup_insert _).symm.trans hc₁)
      exact hsteps.sentCancel hsent.1 hsent.2
  · exact hset.cancels e he

end ClientSteps

/-! ## The handler under way -/

/-- What the handler under way can do: nothing, if nobody is ready for it; a caller gets its
answer; a client takes a provider, while the manager's context is not done; or something is done
that no client is to be ready for. -/
inductive Performs (s : QueryClients) : QueryClients → Prop
  | stay : Performs s s
  | answered {ps : List PeerID} {l : ListenerID} {es : List QueryEffect} {c : QueryClient}
      (htodo : s.loop.todo = .answer ps l :: es) (hc : s.clients.lookup l = some c)
      (hp : c.phase = .joining) :
      Performs s { s with loop := s.loop.perform, clients := s.clients.insert l (c.answered ps) }
  | taken {l : ListenerID} {p : PeerID} {es : List QueryEffect} {c c' : QueryClient}
      (htodo : s.loop.todo = .send l p :: es) (hctx : s.loop.ctxDone = false)
      (hc : s.clients.lookup l = some c) (hc' : c.accept p = some c') :
      Performs s { s with loop := s.loop.perform, clients := s.clients.insert l c' }
  | other {e : QueryEffect} {es : List QueryEffect} (htodo : s.loop.todo = e :: es)
      (howed : ∀ l, owed l (e :: es) = owed l es) : Performs s { s with loop := s.loop.perform }

theorem performs_perform (s : QueryClients) : s.Performs s.perform := by
  rw [perform]
  split
  · exact .stay
  · rename_i hready
    split
    · rename_i ps l es htodo
      split
      · rename_i c hc
        split
        · rename_i hp
          exact .answered htodo hc hp
        · exact .stay
      · exact .stay
    · rename_i l p es htodo
      have hctx : s.loop.ctxDone = false := by
        refine Bool.eq_false_iff.mpr fun hd => hready ⟨hd, .send l p, ?_, trivial⟩
        rw [htodo]
        rfl
      split
      · rename_i c' hc'
        obtain ⟨c, hc, haccept⟩ := Option.bind_eq_some_iff.mp hc'
        exact .taken htodo hctx hc haccept
      · exact .stay
    · rename_i hanswer hsend
      cases htodo : s.loop.todo with
      | nil =>
          rw [QueryLoop.perform_of_nil htodo]
          exact .stay
      | cons e es =>
          refine .other htodo fun l => ?_
          cases e with
          | send l p => exact absurd htodo (hsend l p es)
          | _ => rfl

section Perform

variable {l : ListenerID} {c c' : QueryClient} {e : QueryEffect} {es : List QueryEffect}
  {clients : GoMap ListenerID QueryClient}

/-- The next thing is done, and the client has got what it was owed by it. -/
theorem Held.perform (h : s.Held l c) (htodo : s.loop.todo = e :: es)
    (hquery : c'.query = c.query) (hincoming : c'.incoming = c.incoming)
    (hinOrder : c'.read ++ c'.receivedProviders <+: s.found c.query.ctx)
    (hlist : c'.read ++ c'.receivedProviders ++ owed l es =
      c.read ++ c.receivedProviders ++ owed l (e :: es)) :
    ({ s with loop := s.loop.perform, clients := clients } : QueryClients).Held l c' := by
  have hlog := s.loop.log_perform
  have hloop := QueryLoop.perform_of_cons htodo
  refine ⟨?_, ?_, fun hctx => ?_, fun hin => ?_⟩
  · show s.loop.perform.pqm.Listed l ∨ (¬ s.loop.perform.pqm.InProgress c'.query.ctx ∧
      .close l ∈ s.loop.perform.log) ∨ s.loop.perform.stopped = true
    rw [hlog, hloop, hquery]
    exact h.place
  · rw [hquery]
    exact hinOrder
  · show _ ++ owed l s.loop.perform.todo = _
    rw [hloop] at hctx ⊢
    rw [hlist, hquery, ← htodo]
    exact h.whole hctx
  · show .close l ∈ s.loop.perform.done
    rw [hloop]
    exact List.mem_append_left _ (h.closed (hincoming ▸ hin))

theorem Keeps.perform (h : s.Keeps l c) (htodo : s.loop.todo = e :: es)
    (howed : c.phase = .receiving → owed l (e :: es) = owed l es) :
    ({ s with loop := s.loop.perform, clients := clients } : QueryClients).Keeps l c := by
  have hloop := QueryLoop.perform_of_cons htodo
  refine h.move ?_ ?_ (List.prefix_refl _) ?_ fun hp hheld => ?_
  · rw [hloop]
  · rw [hloop]
    exact id
  · rw [hloop]
    exact fun hgone => ⟨rfl, hgone⟩
  · exact hheld.perform htodo rfl rfl hheld.inOrder (by rw [howed hp])

/-- The client that the next thing is for receives after it. -/
theorem Keeps.receives (h : s.Keeps l c) (htodo : s.loop.todo = e :: es)
    (hp : c'.phase = .receiving) (hquery : c'.query = c.query)
    (hheld : ({ s with loop := s.loop.perform, clients := clients } : QueryClients).Held l c') :
    ({ s with loop := s.loop.perform, clients := clients } : QueryClients).Keeps l c' := by
  have hloop := QueryLoop.perform_of_cons htodo
  refine ⟨?_, (List.prefix_append _ _).trans hheld.inOrder, fun hj => ?_, fun _ => hheld,
    fun hc => ?_, fun he => ?_⟩
  · show c'.query.ctx < s.loop.perform.pqm.nextContext
    rw [hloop, hquery]
    exact h.ctx
  · cases hp.symm.trans hj
  · cases hp.symm.trans hc
  · cases hp.symm.trans he

/-- The next thing is done: one client may have changed by it. -/
theorem Inv.perform (h : s.Inv) (htodo : s.loop.todo = e :: es)
    (hold : ∀ l c', clients.lookup l = some c' →
      (s.clients.lookup l = some c' ∧ owed l (e :: es) = owed l es) ∨
      ∃ c, s.clients.lookup l = some c ∧ c'.query = c.query ∧
        (c'.phase = .receiving → c.phase = .receiving ∨ es = []) ∧
        (c.phase = .cancelling ∨ c.phase = .ended → c'.phase = c.phase) ∧
        ({ s with loop := s.loop.perform, clients := clients } : QueryClients).Keeps l c') :
    ({ s with loop := s.loop.perform, clients := clients } : QueryClients).Inv := by
  have hloop := QueryLoop.perform_of_cons htodo
  have hmem : ∀ e' ∈ s.loop.perform.todo, e' ∈ s.loop.todo := by
    rw [hloop, htodo]
    exact fun e' he' => List.mem_cons_of_mem _ he'
  refine h.replace (QueryLoop.inv_perform h.loop) ?_ (fun r => hmem _) (fun ps l => hmem _)
    fun l c' hc' => ?_
  · rw [hloop]
  · rcases hold l c' hc' with ⟨hc, howed⟩ | ⟨c, hc, hq, hp, hcan, hk⟩
    · exact ⟨c', hc, rfl, .inl, id, (h.clients l c' hc).perform htodo fun _ => howed⟩
    · refine ⟨c, hc, hq, fun hr => (hp hr).imp_right fun hes r => ?_, fun hcc => ?_, hk⟩
      · rw [hloop, hes]
        exact List.not_mem_nil
      · rw [hcan hcc]
        exact hcc

/-- The caller gets its answer: the list as it is, and a channel for what follows. -/
theorem inv_answered (h : s.Inv) {ps : List PeerID} (htodo : s.loop.todo = .answer ps l :: es)
    (hc : s.clients.lookup l = some c) (hp : c.phase = .joining) :
    ({ s with loop := s.loop.perform, clients := s.clients.insert l (c.answered ps) } :
      QueryClients).Inv := by
  have hloop := QueryLoop.perform_of_cons htodo
  have hdoing := h.loop.doing
  rw [htodo] at hdoing
  obtain rfl := hdoing.answer
  obtain ⟨hlisted, hps⟩ := h.answer ps l (htodo ▸ List.mem_cons_self)
  have hkeeps := h.clients l c hc
  have hread := hkeeps.joining hp
  have hlist : c.read ++ ps = s.found c.query.ctx := by
    rw [hread, hps c hc]
    rfl
  refine h.perform htodo fun l' c' hc' => ?_
  rcases GoMap.lookup_insert_eq_some.mp hc' with ⟨rfl, rfl⟩ | ⟨-, hc'⟩
  · refine .inr ⟨c, hc, rfl, fun _ => .inr rfl, fun hcc => ?_, hkeeps.receives htodo rfl rfl
      ⟨.inl ?_, ?_, fun _ => ?_, fun hin => ?_⟩⟩
    · rcases hcc with hcc | hcc <;> cases hp.symm.trans hcc
    · show s.loop.perform.pqm.Listed l'
      rw [hloop]
      exact hlisted
    · show c.read ++ ps <+: s.found c.query.ctx
      exact hlist ▸ List.prefix_refl _
    · show c.read ++ ps ++ owed l' s.loop.perform.todo = s.found c.query.ctx
      rw [hloop, hlist]
      exact List.append_nil _
    · cases hin
  · exact .inl ⟨hc', rfl⟩

/-- A provider is taken: it is kept, or thrown away by a client that is cancelling. -/
theorem accept_cases {p : PeerID} (h : c.accept p = some c') :
    (c.phase = .receiving ∧ c' = { c with receivedProviders := c.receivedProviders ++ [p] }) ∨
      (c.phase = .cancelling ∧ c' = c) := by
  rw [QueryClient.accept] at h
  split at h
  · rename_i hp
    split at h
    · exact .inl ⟨hp, (Option.some.inj h).symm⟩
    · cases h
  · rename_i hp
    exact .inr ⟨hp, (Option.some.inj h).symm⟩
  · cases h
  · cases h

theorem inv_sent (h : s.Inv) {p : PeerID} (htodo : s.loop.todo = .send l p :: es)
    (hctx : s.loop.ctxDone = false) (hc : s.clients.lookup l = some c)
    (hc' : c.accept p = some c') :
    ({ s with loop := s.loop.perform, clients := s.clients.insert l c' } : QueryClients).Inv := by
  have hkeeps := h.clients l c hc
  refine h.perform htodo fun l₁ c₁ hc₁ => ?_
  rcases GoMap.lookup_insert_eq_some.mp hc₁ with ⟨rfl, rfl⟩ | ⟨hne, hc₁⟩
  · rcases accept_cases hc' with ⟨hp, rfl⟩ | ⟨hp, rfl⟩
    · have hheld := hkeeps.receiving hp
      have hlist : c.read ++ (c.receivedProviders ++ [p]) ++ owed l₁ es =
          c.read ++ c.receivedProviders ++ owed l₁ (.send l₁ p :: es) := by
        simp only [owed_send_cons, List.append_assoc, List.singleton_append]
      refine .inr ⟨c, hc, rfl, fun _ => .inl hp, fun _ => rfl,
        hkeeps.receives htodo hp rfl (hheld.perform htodo rfl rfl ?_ hlist)⟩
      -- the provider was owed next
      rw [← hheld.whole hctx, htodo, ← hlist]
      exact List.prefix_append _ _
    · exact .inr ⟨_, hc, rfl, .inl, fun _ => rfl, hkeeps.perform htodo fun hr => by
        cases hp.symm.trans hr⟩
  · exact .inl ⟨hc₁, owed_cons_of_not_uses fun huse => hne huse.symm⟩

theorem inv_performs (h : s.Inv) {s' : QueryClients} (hs : s.Performs s') : s'.Inv := by
  cases hs with
  | stay => exact h
  | answered htodo hc hp => exact inv_answered h htodo hc hp
  | taken htodo hctx hc hc' => exact inv_sent h htodo hctx hc hc'
  | other htodo howed => exact h.perform htodo fun l _ hc' => .inl ⟨hc', howed l⟩

end Perform

/-! ## A handler that gives up -/

section GiveUp

variable {l : ListenerID} {c : QueryClient}

/-- A client that receives has kept its place, and what it has. -/
theorem Held.giveUp (h : s.Held l c) (hloop : s.loop.Inv) (hctx : s.loop.ctxDone = true)
    (hlisted : s.loop.pqm.Listed l → s.loop.giveUp.pqm.Listed l) :
    ({ s with loop := s.loop.giveUp } : QueryClients).Held l c := by
  rcases hloop.giveUp_cases with hsame | ⟨e, es, pqm, htodo, he, hdrop, hpqm⟩
  · rw [hsame]
    exact h
  · obtain ⟨-, -, -, -, hprogress⟩ := QueryLoop.drops_find hloop.sound hpqm
    rw [hdrop] at hlisted ⊢
    refine ⟨?_, h.inOrder, fun hno => ?_, h.closed⟩
    · refine h.place.imp hlisted (Or.imp_left fun hgone => ⟨fun hin => ?_, ?_⟩)
      · exact hgone.1 ((hprogress _).mp hin)
      · have hends : (QueryEffect.close l).Ends := trivial
        exact List.mem_append_left _ ((hloop.mem_done_iff htodo he hends).mpr hgone.2)
    · cases hctx.symm.trans hno

theorem Keeps.giveUp (h : s.Keeps l c) (hloop : s.loop.Inv) (hctx : s.loop.ctxDone = true)
    (hlisted : c.phase = .receiving → s.loop.pqm.Listed l → s.loop.giveUp.pqm.Listed l) :
    ({ s with loop := s.loop.giveUp } : QueryClients).Keeps l c := by
  have hctx' : s.loop.giveUp.ctxDone = true := by
    rcases hloop.giveUp_cases with hsame | ⟨e, es, pqm, -, -, hdrop, -⟩
    · rw [hsame]
      exact hctx
    · rw [hdrop]
      exact hctx
  have hnext : s.loop.giveUp.pqm.nextContext = s.loop.pqm.nextContext := by
    rcases hloop.giveUp_cases with hsame | ⟨e, es, pqm, -, -, hdrop, hpqm⟩
    · rw [hsame]
    · rw [hdrop]
      exact (QueryLoop.drops_find hloop.sound hpqm).2.2.1
  refine ⟨?_, h.inOrder, h.joining, fun hp => (h.receiving hp).giveUp hloop hctx (hlisted hp),
    h.cancelling, fun _ => .inr (.inr hctx')⟩
  show c.query.ctx < s.loop.giveUp.pqm.nextContext
  rw [hnext]
  exact h.ctx

/-- The handler gives up, and the table stays. -/
theorem Inv.giveUp_same (h : s.Inv) (hctx : s.loop.ctxDone = true)
    (hpqm : s.loop.giveUp.pqm = s.loop.pqm)
    (hmem : ∀ e ∈ s.loop.giveUp.todo, e ∈ s.loop.todo) :
    ({ s with loop := s.loop.giveUp } : QueryClients).Inv := by
  refine h.replace (QueryLoop.inv_giveUp h.loop hctx) hpqm (fun r => hmem _) (fun ps l => hmem _)
    fun l c hc => ⟨c, hc, rfl, .inl, id, (h.clients l c hc).giveUp h.loop hctx fun _ hl => ?_⟩
  rw [hpqm]
  exact hl

/-- The handler gives up before the request is passed on: nobody receives from that query yet. -/
theorem Inv.giveUp_find (h : s.Inv) (hctx : s.loop.ctxDone = true) {r : FindProviderRequest}
    {es : List QueryEffect} {st : InProgressRequestStatus} (htodo : s.loop.todo = .find r :: es)
    (hst : s.loop.pqm.status r.k = some st) (hr : r.ctx = st.ctx)
    (hdrop : s.loop.giveUp =
      { s.loop with pqm := s.loop.pqm.setStatus r.k ⟨r.ctx, [], ∅⟩, todo := [] }) :
    ({ s with loop := s.loop.giveUp } : QueryClients).Inv := by
  obtain ⟨hempty, hnobody⟩ := h.finding r (htodo ▸ List.mem_cons_self)
  have hnil : s.loop.giveUp.todo = [] := by rw [hdrop]
  -- a status of the table is that of the request, or was there before
  have hstatus : ∀ k st', s.loop.giveUp.pqm.status k = some st' →
      st' = ⟨r.ctx, [], ∅⟩ ∨ s.loop.pqm.status k = some st' := by
    intro k st' hst'
    rw [hdrop] at hst'
    exact (status_setStatus_cases hst').imp And.right And.right
  have hlisted : ∀ l c, s.clients.lookup l = some c → c.phase = .receiving →
      s.loop.pqm.Listed l → s.loop.giveUp.pqm.Listed l := by
    rintro l c hc hp ⟨k, st', hst', hl⟩
    refine ⟨k, st', ?_, hl⟩
    rw [hdrop, status_setStatus, if_neg]
    · exact hst'
    · rintro rfl
      obtain rfl := Option.some.inj (hst.symm.trans hst')
      refine hnobody l c hc ?_ hp
      rw [h.owner r.k st l c hst hl hc]
      exact hr.symm
  refine ⟨QueryLoop.inv_giveUp h.loop hctx, fun k st' hst' => ?_, fun k st' l c hst' hl hc => ?_,
    fun l hl => ?_, fun r' hr' => ?_, fun ps l hps => ?_, fun e he => ⟨?_, ?_⟩,
    fun l c hc => ?_⟩
  · rcases hstatus k st' hst' with rfl | hst'
    · exact hempty
    · exact h.found k st' hst'
  · rcases hstatus k st' hst' with rfl | hst'
    · exact absurd hl (AList.notMem_empty l)
    · exact h.owner k st' l c hst' hl hc
  · show l < s.loop.giveUp.pqm.nextListener
    rw [hdrop]
    exact h.known l hl
  · rw [hnil] at hr'
    cases hr'
  · rw [hnil] at hps
    cases hps
  · show e.1 < s.loop.giveUp.pqm.nextListener
    rw [hdrop]
    exact (h.cancels e he).1
  · exact (h.cancels e he).2
  · exact (h.clients l c hc).giveUp h.loop hctx (hlisted l c hc)

theorem inv_giveUp (h : s.Inv) (hctx : s.loop.ctxDone = true) :
    ({ s with loop := s.loop.giveUp } : QueryClients).Inv := by
  rcases h.loop.giveUp_cases with hsame | ⟨e, es, pqm, htodo, -, hdrop, hpqm⟩
  · refine h.giveUp_same hctx (by rw [hsame]) ?_
    rw [hsame]
    exact fun e he => he
  · rcases hpqm with rfl | ⟨r, st, rfl, hst, hr, rfl⟩
    · refine h.giveUp_same hctx (by rw [hdrop]) ?_
      rw [hdrop]
      exact fun e he => absurd he List.not_mem_nil
    · exact h.giveUp_find hctx htodo hst hr hdrop

end GiveUp

end QueryClients

end BitswapAuth
