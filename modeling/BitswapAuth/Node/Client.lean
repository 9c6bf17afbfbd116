/-
# `BitswapAuth.Node.Client` — no want without a session that is interested in it

The node together with the peer manager.  A session asks peers for wants on four
ways: its sender sends them to one peer, the run loop broadcasts the first wants
of a request, those of an idle tick or of a report that peers are exhausted, and
the one of a periodic search.  Wants are taken back when their blocks come, when
a session is removed, and by `CancelSessionWants`.

None of this happens under one lock.  A step of the node that leads to a call of
the peer manager therefore leaves an *errand*, and so does a turn of a sender for
each of its effects.  An errand is done in a step of its own, at any later time and
in any order; only the removal of a session waits for the errands of its two
loops, as `handleShutdown` does.

`no_orphan_wants`: in every state, a want that the peer manager holds has an
entry of some session, unless the cancel of a removal that returned it is still
an errand.
-/
import BitswapAuth.Node.Entries
import BitswapAuth.PeerManager.Asked

namespace BitswapAuth

open Lib

/-- What is still to be done: an effect of a sender's turn, a broadcast of a run loop, or
a cancel, with whether it is that of a removal. -/
inductive Errand where
  | effect (sid : SessionID) (e : Effect)
  | broadcastWantHaves (sid : SessionID) (ws : List Want)
  | sendCancels (removal : Bool) (ks : List Want)
  deriving DecidableEq

/-- The session whose loops have the errand to do. -/
def Errand.session : Errand → Option SessionID
  | .effect sid _ | .broadcastWantHaves sid _ => some sid
  | .sendCancels _ _ => none

namespace Node

/-- What a step of a session leaves to be broadcast, if it does. -/
def broadcasts (n : Node) (sid : SessionID) (f : Session → Option (List Want)) : List Errand :=
  match n.sessions.lookup sid with
  | none => []
  | some s => ((f s).map (.broadcastWantHaves sid)).toList

/-- The calls of the peer manager that a step leads to, the turns of senders apart. -/
def errands (n : Node) : Action → List Errand
  | .takeOp sid now => n.broadcasts sid fun s =>
      match s.loop, s.incoming with
      | .select, oper :: rest =>
          if oper.op = .opBroadcast then
            some (({ s with incoming := rest } : Session).broadcast now (some oper.wants)).2
          else none
      | _, _ => none
  | .sendFirst sid now => n.broadcasts sid fun s =>
      if s.loop = .sending ∧ (s.sendFirst now).2 ≠ [] then some (s.sendFirst now).2 else none
  | .idleTick sid now => n.broadcasts sid fun s =>
      if s.loop = .select ∧ s.idleTick.fired.isSome = true then
        some (({ s with idleTick := s.idleTick.take } : Session).broadcast now none).2
      else none
  | .periodicSearch sid i nextWaitTime => n.broadcasts sid fun s =>
      if s.loop = .select ∧ s.periodicSearchTimer.fired.isSome = true then
        let s := { s with periodicSearchTimer := s.periodicSearchTimer.take }
        some (s.handlePeriodicSearch i nextWaitTime).2
      else none
  | .removeSession sid o =>
      match n.sessions.lookup sid with
      | none => []
      | some s =>
          if s.done = true ∧ s.loop = .select then [.sendCancels true (n.sim.removeSession sid o).2]
          else []
  | .receiveStep i _ _ =>
      -- every interested session has been told
      match n.receives[i]? with
      | none => []
      | some t => if t.place = .telling [] then [.sendCancels false t.allKs] else []
  | _ => []

/-- A turn of a sender, and the effects it is to have. -/
def turned (n : Node) (sid : SessionID) : Node × List Effect :=
  match n.sessions.lookup sid with
  | none => (n, [])
  | some s =>
      if s.changes.isEmpty then (n, [])
      else
        let r := s.sws.onChange n.bpm (s.changes.take changesBufferSize)
        let s := { s with sws := r.1, changes := s.changes.drop changesBufferSize }
        ({ n with sessions := n.sessions.insert sid s }, r.2)

/-- The turn with its effects is the turn as one step. -/
theorem onChange_eq_turned (n : Node) (sid : SessionID) :
    n.onChange sid = (n.turned sid).2.foldl (call sid) (n.turned sid).1 := by
  rw [Node.onChange, turned]
  cases n.sessions.lookup sid with
  | none => rfl
  | some s =>
      dsimp only
      split <;> rfl

end Node

/-! ## The system -/

/-- A node, its peer manager, and what is still to be done. -/
structure Client (Q : Type) where
  node : Node
  pm : PeerManager Q
  errands : List Errand

namespace Client

variable {Q : Type}

/-- The steps: one of the node, an errand with the order in which the peers are visited, and
peers that come and go. -/
inductive Act where
  | node (a : Action)
  | errand (i : Nat) (o : RangeOrder)
  | connected (p : PeerID) (ob os : RangeOrder)
  | disconnected (p : PeerID) (ob oh os : RangeOrder)

def start : Client Q := ⟨.start, .new, []⟩

/-- One of the loops of the session has something to do yet. -/
def Busy (c : Client Q) (sid : SessionID) : Prop := ∃ t ∈ c.errands, t.session = some sid

instance (c : Client Q) (sid : SessionID) : Decidable (c.Busy sid) :=
  inferInstanceAs (Decidable (∃ t ∈ c.errands, t.session = some sid))

/-- A step of the node. -/
def onNode (c : Client Q) : Action → Client Q
  | .onChange sid =>
      let r := c.node.turned sid
      { c with node := r.1, errands := c.errands ++ r.2.map (.effect sid) }
  | .removeSession sid o =>
      -- the sender's loop has ended before
      if c.Busy sid then c
      else
        { c with
          node := c.node.step (.removeSession sid o)
          errands := c.errands ++ c.node.errands (.removeSession sid o) }
  | a => { c with node := c.node.step a, errands := c.errands ++ c.node.errands a }

/-- An effect of a sender's turn. -/
def effect [PeerQueue Q] (c : Client Q) (sid : SessionID) : Effect → Client Q
  | .sendWants p bs hs => { c with pm := c.pm.step (.sendWants p bs hs) }
  | .cancelSessionWants ws =>
      { c with
        node := c.node.call sid (.cancelSessionWants ws)
        errands := c.errands ++ [.sendCancels true (c.node.sim.removeSessionInterested sid ws).2] }
  | e => { c with node := c.node.call sid e }

/-- An errand is done. -/
def perform [PeerQueue Q] (c : Client Q) (o : RangeOrder) : Errand → Client Q
  | .effect sid e => c.effect sid e
  | .broadcastWantHaves _ ws => { c with pm := c.pm.step (.broadcastWantHaves ws o) }
  | .sendCancels _ ks => { c with pm := c.pm.step (.sendCancels ks o) }

def step [PeerQueue Q] (c : Client Q) : Act → Client Q
  | .node a => c.onNode a
  | .errand i o =>
      match c.errands[i]? with
      | none => c
      | some t => ({ c with errands := c.errands.eraseIdx i } : Client Q).perform o t
  | .connected p ob os => { c with pm := c.pm.step (.connected p ob os) }
  | .disconnected p ob oh os => { c with pm := c.pm.step (.disconnected p ob oh os) }

/-! ## Every want that is held has an entry -/

/-- What a session's loops are to pass on has an entry of the session. -/
def ErrandOk (n : Node) : Errand → Prop
  | .effect sid e => (∀ w ∈ SessionWantSender.namedBy e, n.Interested sid w) ∧
      SessionWantSender.cancelledBy e = none
  | .broadcastWantHaves sid ws => ∀ w ∈ ws, n.Interested sid w
  | .sendCancels _ _ => True

/-- The want was returned by a removal whose cancel is still an errand. -/
def Removing (c : Client Q) (w : Want) : Prop := ∃ ks, .sendCancels true ks ∈ c.errands ∧ w ∈ ks

structure Inv (c : Client Q) : Prop where
  wf : c.node.Wf
  entered : c.node.Entered
  pm : c.pm.Exact
  errands : ∀ t ∈ c.errands, ErrandOk c.node t
  held : ∀ w, c.pm.asked.Holds w → (∃ sid, c.node.Interested sid w) ∨ c.Removing w

theorem inv_start : (start : Client Q).Inv where
  wf := Node.wf_start
  entered := Node.entered_start
  pm := PeerManager.exact_new
  errands t ht := absurd ht List.not_mem_nil
  held w hw := by
    rcases hw with hw | ⟨p, pws, hp, -⟩
    · exact absurd hw (AList.notMem_empty w)
    · cases hp

/-- Errands stay in order as long as the entries of their session do. -/
theorem ErrandOk.mono {n n' : Node} {t : Errand} (h : ErrandOk n t)
    (hkeep : ∀ sid w, t.session = some sid → n.Interested sid w → n'.Interested sid w) :
    ErrandOk n' t := by
  cases t with
  | effect sid e => exact ⟨fun w hw => hkeep sid w rfl (h.1 w hw), h.2⟩
  | broadcastWantHaves sid ws => exact fun w hw => hkeep sid w rfl (h w hw)
  | sendCancels removal ks => trivial

theorem Inv.onNode {c c' : Client Q} (h : c.Inv) (hwf : c'.node.Wf) (hent : c'.node.Entered)
    (hkeep : ∀ sid w, c.node.Interested sid w → c'.node.Interested sid w) (hpm : c'.pm = c.pm)
    {new : List Errand} (herrands : c'.errands = c.errands ++ new)
    (hnew : ∀ t ∈ new, ErrandOk c'.node t) : c'.Inv := by
  refine ⟨hwf, hent, hpm ▸ h.pm, fun t ht => ?_, fun w hw => ?_⟩
  · rw [herrands] at ht
    rcases List.mem_append.mp ht with ht | ht
    · exact (h.errands t ht).mono fun sid w _ => hkeep sid w
    · exact hnew t ht
  · rw [hpm] at hw
    rcases h.held w hw with ⟨sid, hi⟩ | ⟨ks, hks, hw⟩
    · exact .inl ⟨sid, hkeep sid w hi⟩
    · exact .inr ⟨ks, herrands ▸ List.mem_append_left new hks, hw⟩

variable {n : Node} {sid : SessionID}

/-- A broadcast that the session's books bear out. -/
theorem errandOk_broadcasts (hent : n.Entered) {f : Session → Option (List Want)}
    (hf : ∀ s, s.Noted (n.Interested sid) → ∀ ws, f s = some ws → ∀ w ∈ ws, n.Interested sid w) :
    ∀ t ∈ n.broadcasts sid f, ErrandOk n t := by
  intro t ht
  rw [Node.broadcasts] at ht
  split at ht
  · exact absurd ht List.not_mem_nil
  · rename_i s hs
    obtain ⟨ws, hws, rfl⟩ := Option.map_eq_some_iff.mp (Option.mem_toList.mp ht)
    exact hf s (hent.noted sid s hs) ws hws

/-- What a step leads to is in order. -/
theorem errandOk_errands (hent : n.Entered) (a : Action) : ∀ t ∈ n.errands a, ErrandOk n t := by
  cases a with
  | takeOp sid now =>
      refine errandOk_broadcasts hent fun s hn ws hws => ?_
      split at hws
      · rename_i oper rest hloop hinc
        split at hws
        · rename_i hop
          obtain rfl := Option.some.inj hws
          exact hn.incoming oper (hinc ▸ List.mem_cons_self) (.inr hop)
        · cases hws
      · cases hws
  | sendFirst sid now =>
      refine errandOk_broadcasts hent fun s hn ws hws => ?_
      split at hws
      · obtain rfl := Option.some.inj hws
        exact (hn.sendFirst now).2
      · cases hws
  | idleTick sid now =>
      refine errandOk_broadcasts hent fun s hn ws hws => ?_
      split at hws
      · obtain rfl := Option.some.inj hws
        have hn' : Session.Noted (n.Interested sid) { s with idleTick := s.idleTick.take } :=
          { hn with }
        exact (hn'.broadcast now).2
      · cases hws
  | periodicSearch sid i d =>
      refine errandOk_broadcasts hent fun s hn ws hws => ?_
      split at hws
      · obtain rfl := Option.some.inj hws
        have hn' : Session.Noted (n.Interested sid)
            { s with periodicSearchTimer := s.periodicSearchTimer.take } := { hn with }
        exact hn'.handlePeriodicSearch i d
      · cases hws
  | removeSession sid o =>
      intro t ht
      rw [Node.errands] at ht
      split at ht
      · exact absurd ht List.not_mem_nil
      · split at ht
        · rw [List.mem_singleton.mp ht]
          trivial
        · exact absurd ht List.not_mem_nil
  | receiveStep i o skip =>
      intro t ht
      rw [Node.errands] at ht
      split at ht
      · exact absurd ht List.not_mem_nil
      · split at ht
        · rw [List.mem_singleton.mp ht]
          trivial
        · exact absurd ht List.not_mem_nil
  | _ => exact fun t ht => absurd ht List.not_mem_nil

theorem Inv.turned {c : Client Q} (h : c.Inv) (sid : SessionID) :
    Inv { c with
      node := (c.node.turned sid).1
      errands := c.errands ++ (c.node.turned sid).2.map (.effect sid) } := by
  have hturn : (c.node.turned sid).1.Wf ∧ (c.node.turned sid).1.Entered ∧
      (c.node.turned sid).1.sim = c.node.sim ∧
      ∀ e ∈ (c.node.turned sid).2, ErrandOk c.node (.effect sid e) := by
    rw [Node.turned]
    split
    · exact ⟨h.wf, h.entered, rfl, fun e he => absurd he List.not_mem_nil⟩
    · rename_i s hs
      split
      · exact ⟨h.wf, h.entered, rfl, fun e he => absurd he List.not_mem_nil⟩
      · obtain ⟨hn, hnamed⟩ := (h.entered.noted sid s hs).turn c.node.bpm changesBufferSize
        refine ⟨h.wf.insert_turn hs changesBufferSize, ?_, rfl, fun e he => ⟨hnamed e he, ?_⟩⟩
        · exact h.entered.insert (fun _ _ hi => hi) (fun _ _ hi => .inl hi) hn
        · exact ((h.wf.turn hs changesBufferSize).2 e he).2
  obtain ⟨hwf, hent, hsim, heff⟩ := hturn
  have hkeep : ∀ sid' w, c.node.Interested sid' w → (c.node.turned sid).1.Interested sid' w := by
    intro sid' w hi
    rw [Node.Interested, hsim]
    exact hi
  refine h.onNode hwf hent hkeep rfl rfl fun t ht => ?_
  obtain ⟨e, he, rfl⟩ := List.mem_map.mp ht
  exact (heff e he).mono fun sid' w _ => hkeep sid' w

/-- A session is removed, and the wants returned are to be cancelled, or nothing
happens. -/
theorem removeSession_cases (n : Node) (sid : SessionID) (o : RangeOrder) :
    ((n.removeSession sid o).sim = n.sim ∧ n.errands (.removeSession sid o) = []) ∨
      ((n.removeSession sid o).sim = (n.sim.removeSession sid o).1 ∧
        n.errands (.removeSession sid o) = [.sendCancels true (n.sim.removeSession sid o).2]) := by
  rw [Node.removeSession, Node.errands]
  cases n.sessions.lookup sid with
  | none => exact .inl ⟨rfl, rfl⟩
  | some s =>
      dsimp only
      split
      · exact .inr ⟨rfl, rfl⟩
      · exact .inl ⟨rfl, rfl⟩

/-- The removal of a session with nothing to do: the wants that had an entry of this session
alone are returned. -/
theorem Inv.removeSession {c : Client Q} (h : c.Inv) {sid : SessionID} (o : RangeOrder)
    (hidle : ¬ c.Busy sid) : Inv { c with
      node := c.node.removeSession sid o
      errands := c.errands ++ c.node.errands (.removeSession sid o) } := by
  have hwf := h.wf.removeSession sid o
  have hent := h.entered.removeSession sid o
  rcases removeSession_cases c.node sid o with ⟨hsim, herrands⟩ | ⟨hsim, herrands⟩
  · refine h.onNode hwf hent (fun sid' w hi => ?_) rfl rfl fun t ht => ?_
    · rw [Node.Interested, hsim]
      exact hi
    · rw [herrands] at ht
      exact absurd ht List.not_mem_nil
  · have hkeep : ∀ sid' w, sid' ≠ sid → c.node.Interested sid' w →
        (c.node.removeSession sid o).Interested sid' w := by
      intro sid' w hne hi
      rw [Node.Interested, hsim, SessionInterestManager.find_removeSession, if_neg hne]
      exact hi
    refine ⟨hwf, hent, h.pm, fun t ht => ?_, fun w hw => ?_⟩
    · rcases List.mem_append.mp ht with ht | ht
      · refine (h.errands t ht).mono fun sid' w hs => hkeep sid' w fun he => hidle ⟨t, ht, ?_⟩
        rw [hs, he]
      · rw [herrands] at ht
        rw [List.mem_singleton.mp ht]
        trivial
    · rcases h.held w hw with ⟨sid', hi⟩ | ⟨ks, hks, hw⟩
      · by_cases hother : ∃ sid', sid' ≠ sid ∧ c.node.Interested sid' w
        · obtain ⟨sid', hne, hi⟩ := hother
          exact .inl ⟨sid', hkeep sid' w hne hi⟩
        · -- nobody else is interested
          refine .inr ⟨_, List.mem_append_right _ (herrands ▸ List.mem_singleton_self _), ?_⟩
          refine SessionInterestManager.mem_removeSession.mpr
            ⟨SessionInterestManager.mem_wants_of_find hi, fun s hs => ?_⟩
          by_contra hf
          exact hother ⟨s, hs, hf⟩
      · exact .inr ⟨ks, List.mem_append_left _ hks, hw⟩

variable [PeerQueue Q]

theorem Inv.op {c : Client Q} (h : c.Inv) (op : PeerManager.Op)
    (hasks : ∀ w ∈ op.asks, ∃ sid, c.node.Interested sid w) :
    Inv { c with pm := c.pm.step op } := by
  obtain ⟨hex, hstep⟩ := PeerManager.asked_step op h.pm
  refine { h with pm := hex, held := fun w hw => ?_ }
  replace hw : (c.pm.step op).asked.Holds w := hw
  rw [hstep] at hw
  rcases hw.of_step with hw | hw
  · exact h.held w hw
  · exact .inl (hasks w hw)

/-- The cancel of wants: what it takes away is not held any more. -/
theorem Inv.sendCancels {c : Client Q} (h : c.Inv) {i : Nat} {removal : Bool} {ks : List Want}
    (hi : c.errands[i]? = some (.sendCancels removal ks)) (o : RangeOrder) :
    Inv { c with pm := c.pm.step (.sendCancels ks o), errands := c.errands.eraseIdx i } := by
  obtain ⟨hex, hstep⟩ := PeerManager.asked_step (.sendCancels ks o) h.pm
  refine ⟨h.wf, h.entered, hex, fun t ht => h.errands t (List.mem_of_mem_eraseIdx ht),
    fun w hw => ?_⟩
  replace hw : (c.pm.step (.sendCancels ks o)).asked.Holds w := hw
  rw [hstep] at hw
  have hnot : w ∉ ks := fun hk => Asked.not_holds_cancelled hk hw
  rcases h.held w (hw.of_step.resolve_right List.not_mem_nil) with hint | ⟨ks', hks', hw'⟩
  · exact .inl hint
  · -- another cancel, as this one does not have the want
    obtain ⟨j, hj⟩ := List.mem_iff_getElem?.mp hks'
    refine .inr ⟨ks', List.mem_eraseIdx_iff_getElem?.mpr ⟨j, ?_, hj⟩, hw'⟩
    rintro rfl
    cases Option.some.inj (hi.symm.trans hj)
    exact hnot hw'

omit [PeerQueue Q] in
theorem Inv.take {c : Client Q} (h : c.Inv) {i : Nat} {t : Errand} (hi : c.errands[i]? = some t)
    {sid : SessionID} (ht : t.session = some sid) :
    Inv { c with errands := c.errands.eraseIdx i } := by
  refine { h with
    errands := fun t' ht' => h.errands t' (List.mem_of_mem_eraseIdx ht')
    held := fun w hw => (h.held w hw).imp_right ?_ }
  rintro ⟨ks, hks, hw⟩
  obtain ⟨j, hj⟩ := List.mem_iff_getElem?.mp hks
  refine ⟨ks, List.mem_eraseIdx_iff_getElem?.mpr ⟨j, ?_, hj⟩, hw⟩
  rintro rfl
  cases Option.some.inj (hi.symm.trans hj)
  cases ht

theorem Inv.effect {c : Client Q} (h : c.Inv) {sid : SessionID} {e : Effect}
    (he : ErrandOk c.node (.effect sid e)) : (c.effect sid e).Inv := by
  obtain ⟨hnamed, hno⟩ := he
  -- the calls on the session itself
  have hcall : Inv { c with node := c.node.call sid e } := by
    have hsim : (c.node.call sid e).sim = c.node.sim := (Node.called_call hno).sim
    refine h.onNode (h.wf.call ?_ hno) (h.entered.call hnamed hno) (fun sid' w hi => ?_) rfl
      (List.append_nil _).symm fun t ht => absurd ht List.not_mem_nil
    · intro w hw
      exact h.wf.sim sid w (hnamed w (SessionWantSender.mem_namedBy_of_sentBy hw))
    · rw [Node.Interested, hsim]
      exact hi
  cases e with
  | sendWants p bs hs => exact h.op (.sendWants p bs hs) fun w hw => ⟨sid, hnamed w hw⟩
  | cancelSessionWants ws => cases hno
  | _ => exact hcall

theorem inv_step {c : Client Q} (a : Act) (h : c.Inv) : (c.step a).Inv := by
  cases a with
  | node a =>
      have hstep : (∀ sid, a ≠ .onChange sid) → (∀ sid o, a ≠ .removeSession sid o) →
          Inv { c with node := c.node.step a, errands := c.errands ++ c.node.errands a } := by
        intro hchange hremove
        have hkeep : ∀ sid w, c.node.Interested sid w → (c.node.step a).Interested sid w :=
          fun sid w hi => h.wf.find_keeps hi a (hremove sid)
        exact h.onNode (h.wf.step a) (h.entered.step h.wf a hchange) hkeep rfl rfl fun t ht =>
          (errandOk_errands h.entered a t ht).mono fun sid w _ => hkeep sid w
      cases a with
      | onChange sid => exact h.turned sid
      | removeSession sid o =>
          show (if c.Busy sid then c else _).Inv
          split
          · exact h
          · rename_i hidle
            exact h.removeSession o hidle
      | _ => exact hstep nofun nofun
  | errand i o =>
      rw [step]
      split
      · exact h
      · rename_i t hi
        have hok := h.errands t (List.mem_of_getElem? hi)
        cases t with
        | effect sid e => exact (h.take hi rfl).effect hok
        | broadcastWantHaves sid ws =>
            exact (h.take hi rfl).op (.broadcastWantHaves ws o) fun w hw => ⟨sid, hok w hw⟩
        | sendCancels removal ks => exact h.sendCancels hi o
  | connected p ob os =>
      exact h.op (.connected p ob os) fun w hw => absurd hw List.not_mem_nil
  | disconnected p ob oh os =>
      exact h.op (.disconnected p ob oh os) fun w hw => absurd hw List.not_mem_nil

theorem inv_run (acts : List Act) : (run step (start : Client Q) acts).Inv :=
  run_invariant (I := Inv) (fun _ a h => inv_step a h) acts inv_start

/-- **No orphan wants.**  Whatever sessions, blocks and peers do, and however the steps are
interleaved: a want that the want manager holds, for a peer or as broadcast, has an
entry of some session, unless a removal has returned it and its cancel is still to
come.  Once no session is left and every removal has had its cancel, the local
wantlist is empty. -/
theorem no_orphan_wants (acts : List Act) :
    let c := run step (start : Client Q) acts
    (∀ w, (w ∈ c.pm.pwm.broadcastWants ∨ ∃ p pws, c.pm.pwm.peerWants.lookup p = some pws ∧
        (w ∈ pws.wantBlocks ∨ w ∈ pws.wantHaves)) →
      (∃ sid, c.node.sim.find sid w ≠ none) ∨ ∃ ks, .sendCancels true ks ∈ c.errands ∧ w ∈ ks) ∧
    ((∀ sid, sid ∉ c.node.sessions) → (∀ ks, .sendCancels true ks ∉ c.errands) →
      ∀ ob ow, c.pm.currentWants ob ow = []) := by
  intro c
  have h : c.Inv := inv_run acts
  refine ⟨fun w hw => h.held w (hw.imp_right ?_), fun hnone hdone ob ow => ?_⟩
  · rintro ⟨p, pws, hp, hw⟩
    exact ⟨p, pws, hp, PeerWant.has_eq_true.mpr hw⟩
  · refine List.eq_nil_iff_forall_not_mem.mpr fun w hw => ?_
    rcases h.held w (h.pm.mem_currentWants.mp hw) with ⟨sid, hi⟩ | ⟨ks, hks, -⟩
    · exact hnone sid (h.entered.live sid w hi)
    · exact hdone ks hks

/-- A session broadcasts its first want and is shut down; its removal returns the want, and
with the cancel the wantlist is empty. -/
theorem no_orphan_wants_shutdown :
    let w : Want := ⟨⟨[1]⟩, []⟩
    let asked : List Act := [.connected ⟨[7]⟩ .stored .stored,
      .node (.newSession 1 (fun _ => .plain) 10 10), .node (.getBlocks 1 [w]),
      .node (.want 0 false), .node (.takeOp 1 5), .node (.add 1), .node (.sendFirst 1 6),
      .errand 0 .stored]
    let removed := asked ++ [.node (.shutdown 1), .node (.removeSession 1 .stored)]
    let c := run step (start : Client (List QueueCall)) asked
    let c' := run step (start : Client (List QueueCall)) removed
    (c.pm.currentWants .stored .stored = [w] ∧ c.node.sim.find 1 w = some true) ∧
      (c'.pm.currentWants .stored .stored = [w] ∧ c'.errands = [.sendCancels true [w]]) ∧
      (run step (start : Client (List QueueCall)) (removed ++ [.errand 0 .stored])).pm.currentWants
        .stored .stored = [] := by
  have hempty : ∀ acts, (run step (start : Client (List QueueCall)) acts).node.sessions.keys = [] →
      (run step (start : Client (List QueueCall)) acts).errands = [] →
      (run step (start : Client (List QueueCall)) acts).pm.currentWants .stored .stored = [] := by
    intro acts hsessions herrands
    refine (no_orphan_wants acts).2 (fun sid hs => ?_) (fun ks hks => ?_) .stored .stored
    · have hmem := AList.mem_keys.mp hs
      rw [hsessions] at hmem
      exact absurd hmem List.not_mem_nil
    · rw [herrands] at hks
      exact absurd hks List.not_mem_nil
  intro w asked removed c c'
  exact ⟨by decide, by decide,
    hempty _ (by decide) (by decide)⟩

end Client

end BitswapAuth
