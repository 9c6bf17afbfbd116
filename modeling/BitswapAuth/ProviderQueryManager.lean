/-
# `BitswapAuth.ProviderQueryManager` — who ends a provider query

The package `providerquerymanager`.  Sessions ask for the providers of a CID; the
manager starts one find-provider request for all that ask at the same time, passes
the providers on as they come, and closes the listeners' channels when the request
has finished.  Everything happens in one loop that handles messages:

    newProvideQuery k          a listener more, and a request if none is in progress
    receivedProvider k p       p is sent to the listeners of k
    finishedProviderQuery k    the listeners of k are closed, k is forgotten
    cancelRequest l k          l is closed, k is forgotten if it was the last

The messages of a request say its CID and not which request they come from.  A
request whose listeners have all cancelled goes on for a while: it waits in the
buffer for one of the workers, or a worker is still connecting to the peers it
found.  When its last message is handled at last, a new query for the CID may be
in progress, and that message ends it.

`ProviderQueries` has the requests that are under way beside the manager, so that
a message comes from one of them; the buffer, the workers and the channel only
decide when, and here it may be at any time.  `always_ownReasons_iff`: a listener
is closed for a reason of its own, in every state of a run, just when no request
that has been given up finishes while another is in progress for its CID.
-/
import BitswapAuth.Auth
import BitswapAuth.Lib.Run

namespace BitswapAuth

open Lib

/-- The channel of a listener. -/
abbrev ListenerID := Nat

/-- A context that `context.WithCancel` has made. -/
abbrev ContextID := Nat

/-- `inProgressRequestStatus`; `cancelFn` is the one of `ctx`. -/
structure InProgressRequestStatus where
  ctx : ContextID
  providersSoFar : List PeerID
  listeners : GoSet ListenerID

/-- `findProviderRequest`. -/
structure FindProviderRequest where
  k : Cid
  ctx : ContextID
  deriving DecidableEq

/-- `ProviderQueryManager`, the table behind the run loop.  A context or a channel that
is made is a new one each time. -/
structure ProviderQueryManager where
  inProgressRequestStatuses : GoMap Cid InProgressRequestStatus
  nextContext : ContextID
  nextListener : ListenerID

/-- What handling a message does outside the table: a request is passed to the buffer,
a channel is registered as a listener, the caller is answered with it, a provider is
sent to a listener, a listener is closed, a request's context is cancelled. -/
inductive QueryEffect where
  | find (r : FindProviderRequest)
  | listen (l : ListenerID) (r : FindProviderRequest)
  | answer (providersSoFar : List PeerID) (incoming : ListenerID)
  | send (l : ListenerID) (p : PeerID)
  | close (l : ListenerID)
  | cancelFn (ctx : ContextID)

namespace QueryEffect

/-- The requests that are passed on. -/
def finds : List QueryEffect → List FindProviderRequest :=
  List.filterMap fun | .find r => some r | _ => none

/-- The listeners that are registered, with their requests. -/
def listens : List QueryEffect → List (ListenerID × FindProviderRequest) :=
  List.filterMap fun | .listen l r => some (l, r) | _ => none

/-- The listeners that are closed. -/
def closes : List QueryEffect → List ListenerID :=
  List.filterMap fun | .close l => some l | _ => none

variable {ls : List ListenerID}

theorem closes_append (es es' : List QueryEffect) : closes (es ++ es') = closes es ++ closes es' :=
  List.filterMap_append

theorem listens_append (es es' : List QueryEffect) :
    listens (es ++ es') = listens es ++ listens es' :=
  List.filterMap_append

@[simp] theorem closes_map_close : closes (ls.map .close) = ls := by
  rw [closes, List.filterMap_map]
  exact List.filterMap_some

@[simp] theorem listens_map_close : listens (ls.map .close) = [] := by
  rw [listens, List.filterMap_map]
  exact List.filterMap_eq_nil_iff.mpr fun _ _ => rfl

@[simp] theorem closes_map_send {p : PeerID} : closes (ls.map (.send · p)) = [] := by
  rw [closes, List.filterMap_map]
  exact List.filterMap_eq_nil_iff.mpr fun _ _ => rfl

@[simp] theorem listens_map_send {p : PeerID} : listens (ls.map (.send · p)) = [] := by
  rw [listens, List.filterMap_map]
  exact List.filterMap_eq_nil_iff.mpr fun _ _ => rfl

end QueryEffect

namespace ProviderQueryManager

open QueryEffect

/-- `New`. -/
def new : ProviderQueryManager := ⟨∅, 0, 0⟩

/-- The status of the query in progress for a CID. -/
def status (pqm : ProviderQueryManager) (k : Cid) : Option InProgressRequestStatus :=
  pqm.inProgressRequestStatuses.lookup k

def setStatus (pqm : ProviderQueryManager) (k : Cid) (st : InProgressRequestStatus) :
    ProviderQueryManager :=
  { pqm with inProgressRequestStatuses := pqm.inProgressRequestStatuses.insert k st }

def deleteStatus (pqm : ProviderQueryManager) (k : Cid) : ProviderQueryManager :=
  { pqm with inProgressRequestStatuses := pqm.inProgressRequestStatuses.erase k }

/-- The sends that are made until one finds the manager's context done, if one does. -/
def sends {α : Type} (cut : Option Nat) (l : List α) : List α :=
  match cut with
  | none => l
  | some n => l.take n

/-- `receivedProviderMessage.handle`. -/
def receivedProvider (pqm : ProviderQueryManager) (k : Cid) (p : PeerID) (o : RangeOrder)
    (cut : Option Nat) : ProviderQueryManager × List QueryEffect :=
  match pqm.status k with
  | none => (pqm, [])
  | some st =>
      (pqm.setStatus k { st with providersSoFar := st.providersSoFar ++ [p] },
        (sends cut (o.range st.listeners.keys)).map (.send · p))

/-- `finishedProviderQueryMessage.handle`. -/
def finishedProviderQuery (pqm : ProviderQueryManager) (k : Cid) (o : RangeOrder) :
    ProviderQueryManager × List QueryEffect :=
  match pqm.status k with
  | none => (pqm, [])
  | some st =>
      (pqm.deleteStatus k, (o.range st.listeners.keys).map .close ++ [.cancelFn st.ctx])

/-- The last part of `newProvideQueryMessage.handle`: a channel is made, registered, and
sent to the caller. -/
def register (pqm : ProviderQueryManager) (k : Cid) (st : InProgressRequestStatus)
    (cut : Option Nat) : ProviderQueryManager × List QueryEffect :=
  let l := pqm.nextListener
  (({ pqm with nextListener := l + 1 }).setStatus k { st with listeners := st.listeners.add l },
    .listen l ⟨k, st.ctx⟩ :: sends cut [.answer st.providersSoFar l])

/-- `newProvideQueryMessage.handle`. -/
def newProvideQuery (pqm : ProviderQueryManager) (k : Cid) (cut : Option Nat) :
    ProviderQueryManager × List QueryEffect :=
  match pqm.status k with
  | some st => pqm.register k st cut
  | none =>
      let st : InProgressRequestStatus := ⟨pqm.nextContext, [], ∅⟩
      let pqm := ({ pqm with nextContext := pqm.nextContext + 1 }).setStatus k st
      -- the context is done before the request could be passed on
      if cut = some 0 then (pqm, [])
      else
        let r := pqm.register k st (cut.map (· - 1))
        (r.1, .find ⟨k, st.ctx⟩ :: r.2)

/-- `cancelRequestMessage.handle`. -/
def cancelRequest (pqm : ProviderQueryManager) (incomingProviders : ListenerID) (k : Cid) :
    ProviderQueryManager × List QueryEffect :=
  match pqm.status k with
  -- the request has finished while the message was queued
  | none => (pqm, [])
  | some st =>
      if incomingProviders ∈ st.listeners then
        let listeners := st.listeners.remove incomingProviders
        if listeners.len = 0 then
          (pqm.deleteStatus k, [.close incomingProviders, .cancelFn st.ctx])
        else (pqm.setStatus k { st with listeners := listeners }, [.close incomingProviders])
      -- the request has finished and was restarted while the message was queued
      else (pqm, [])

/-- `cleanupInProcessRequests`. -/
def cleanupInProcessRequests (pqm : ProviderQueryManager) (o : RangeOrder) (ol : Cid → RangeOrder) :
    List QueryEffect :=
  (o.range pqm.inProgressRequestStatuses.pairs).flatMap fun e =>
    ((ol e.1).range e.2.listeners.keys).map .close ++ [.cancelFn e.2.ctx]

/-! ## What the handlers do to the table -/

variable {pqm : ProviderQueryManager} {k k' : Cid} {st : InProgressRequestStatus}

@[simp] theorem status_setStatus : (pqm.setStatus k st).status k' =
    if k' = k then some st else pqm.status k' := GoMap.lookup_insert_ite

@[simp] theorem status_deleteStatus : (pqm.deleteStatus k).status k' =
    if k' = k then none else pqm.status k' := GoMap.lookup_erase_ite

theorem status_setStatus_cases {st' : InProgressRequestStatus}
    (h : (pqm.setStatus k st).status k' = some st') :
    k' = k ∧ st' = st ∨ k' ≠ k ∧ pqm.status k' = some st' :=
  GoMap.lookup_insert_eq_some.mp h

theorem status_deleteStatus_some (h : (pqm.deleteStatus k).status k' = some st) :
    k' ≠ k ∧ pqm.status k' = some st :=
  GoMap.lookup_erase_eq_some.mp h

/-- Queries have only gone, or lost listeners. -/
def Shrinks (pqm pqm' : ProviderQueryManager) : Prop :=
  ∀ k st, pqm'.status k = some st → ∃ st₀, pqm.status k = some st₀ ∧
    st.ctx = st₀.ctx ∧ ∀ l ∈ st.listeners, l ∈ st₀.listeners

theorem shrinks_self (pqm : ProviderQueryManager) : pqm.Shrinks pqm :=
  fun _ st h => ⟨st, h, rfl, fun _ hl => hl⟩

/-- A status is replaced by one of the same context with no other listeners. -/
theorem shrinks_setStatus (hst : pqm.status k = some st) {st' : InProgressRequestStatus}
    (hctx : st'.ctx = st.ctx) (hsub : ∀ l ∈ st'.listeners, l ∈ st.listeners) :
    pqm.Shrinks (pqm.setStatus k st') := by
  intro k' st₁ h
  rcases status_setStatus_cases h with ⟨rfl, rfl⟩ | ⟨-, h⟩
  · exact ⟨st, hst, hctx, hsub⟩
  · exact pqm.shrinks_self k' st₁ h

theorem shrinks_deleteStatus (pqm : ProviderQueryManager) (k : Cid) :
    pqm.Shrinks (pqm.deleteStatus k) :=
  fun k' st h => pqm.shrinks_self k' st (status_deleteStatus_some h).2

theorem effects_register (pqm : ProviderQueryManager) (k : Cid) (st : InProgressRequestStatus)
    (cut : Option Nat) : closes (pqm.register k st cut).2 = [] ∧
      listens (pqm.register k st cut).2 = [(pqm.nextListener, ⟨k, st.ctx⟩)] := by
  cases cut with
  | none => exact ⟨rfl, rfl⟩
  | some n =>
      cases n with
      | zero => exact ⟨rfl, rfl⟩
      | succ n => exact ⟨by simp [register, sends, closes], by simp [register, sends, listens]⟩

/-- Handling a new query: the status of the CID, or a new one without listeners, is stored,
and unless the context is done the new channel is among its listeners. -/
theorem newProvideQuery_cases (pqm : ProviderQueryManager) (k : Cid) (cut : Option Nat) :
    ∃ st : InProgressRequestStatus,
      (pqm.status k = some st ∨ (pqm.status k = none ∧ st.listeners = ∅)) ∧
      closes (pqm.newProvideQuery k cut).2 = [] ∧
      ((listens (pqm.newProvideQuery k cut).2 = [] ∧
          (∀ k', (pqm.newProvideQuery k cut).1.status k' =
            if k' = k then some st else pqm.status k') ∧
          (pqm.newProvideQuery k cut).1.nextListener = pqm.nextListener) ∨
        (listens (pqm.newProvideQuery k cut).2 = [(pqm.nextListener, ⟨k, st.ctx⟩)] ∧
          (∀ k', (pqm.newProvideQuery k cut).1.status k' =
            if k' = k then some { st with listeners := st.listeners.add pqm.nextListener }
            else pqm.status k') ∧
          (pqm.newProvideQuery k cut).1.nextListener = pqm.nextListener + 1)) := by
  rw [newProvideQuery]
  cases hst : pqm.status k with
  | some st =>
      obtain ⟨hc, hl⟩ := effects_register pqm k st cut
      exact ⟨st, .inl rfl, hc, .inr ⟨hl, fun k' => status_setStatus, rfl⟩⟩
  | none =>
      refine ⟨⟨pqm.nextContext, [], ∅⟩, .inr ⟨rfl, rfl⟩, ?_⟩
      dsimp only
      split
      · exact ⟨rfl, .inl ⟨rfl, fun k' => status_setStatus, rfl⟩⟩
      · obtain ⟨hc, hl⟩ := effects_register
          (({ pqm with nextContext := pqm.nextContext + 1 }).setStatus k ⟨pqm.nextContext, [], ∅⟩) k
          ⟨pqm.nextContext, [], ∅⟩ (cut.map (· - 1))
        refine ⟨hc, .inr ⟨hl, fun k' => ?_, rfl⟩⟩
        -- the status is stored twice, without the listener and with it
        refine status_setStatus.trans ?_
        split
        · rfl
        · rename_i hk
          exact status_setStatus.trans (if_neg hk)

/-- What a message about a query in progress can do: it registers nobody. -/
structure Drops (pqm : ProviderQueryManager) (r : ProviderQueryManager × List QueryEffect) :
    Prop where
  quiet : listens r.2 = []
  nextListener : r.1.nextListener = pqm.nextListener
  status : pqm.Shrinks r.1

theorem Drops.nothing : pqm.Drops (pqm, []) := ⟨rfl, rfl, pqm.shrinks_self⟩

theorem closes_receivedProvider {p : PeerID} {o : RangeOrder} {cut : Option Nat} :
    closes (pqm.receivedProvider k p o cut).2 = [] := by
  rw [receivedProvider]
  split
  · rfl
  · exact closes_map_send

theorem drops_receivedProvider (p : PeerID) (o : RangeOrder) (cut : Option Nat) :
    pqm.Drops (pqm.receivedProvider k p o cut) := by
  rw [receivedProvider]
  split
  · exact .nothing
  · case h_2 st hst => exact ⟨listens_map_send, rfl, shrinks_setStatus hst rfl fun _ hl => hl⟩

/-- The end of a query closes the listeners of the status for its CID. -/
theorem closes_finishedProviderQuery {o : RangeOrder} :
    closes (pqm.finishedProviderQuery k o).2 =
      match pqm.status k with
      | none => []
      | some st => o.range st.listeners.keys := by
  rw [finishedProviderQuery]
  split
  · rfl
  · rw [closes_append, closes_map_close]
    exact List.append_nil _

theorem drops_finishedProviderQuery (o : RangeOrder) :
    pqm.Drops (pqm.finishedProviderQuery k o) := by
  rw [finishedProviderQuery]
  split
  · exact .nothing
  · refine ⟨?_, rfl, pqm.shrinks_deleteStatus k⟩
    rw [listens_append, listens_map_close]
    rfl

/-- Only the listener that cancels is closed. -/
theorem closes_cancelRequest {l l' : ListenerID} (h : l' ∈ closes (pqm.cancelRequest l k).2) :
    l' = l := by
  rw [cancelRequest] at h
  split at h
  · cases h
  · split at h
    · dsimp only at h
      split at h <;> exact List.mem_singleton.mp h
    · cases h

theorem drops_cancelRequest (l : ListenerID) : pqm.Drops (pqm.cancelRequest l k) := by
  rw [cancelRequest]
  split
  · exact .nothing
  · case h_2 st hst =>
      split
      · dsimp only
        split
        · exact ⟨rfl, rfl, pqm.shrinks_deleteStatus k⟩
        · exact ⟨rfl, rfl, shrinks_setStatus hst rfl fun l' hl' => (GoSet.mem_remove.mp hl').2⟩
      · exact .nothing

theorem closes_cleanupInProcessRequests {o : RangeOrder} (ol : Cid → RangeOrder) :
    closes (pqm.cleanupInProcessRequests o ol) =
      (o.range pqm.inProgressRequestStatuses.pairs).flatMap fun e =>
        (ol e.1).range e.2.listeners.keys := by
  rw [cleanupInProcessRequests, closes, List.filterMap_flatMap]
  refine List.flatMap_congr fun e _ => ?_
  have h := closes_append (((ol e.1).range e.2.listeners.keys).map .close) [.cancelFn e.2.ctx]
  rw [closes_map_close] at h
  exact h.trans (List.append_nil _)

/-- If nobody listens for two CIDs, the cleanup closes nobody twice. -/
theorem nodup_closes_cleanup (hone : ∀ k k' st st' l, pqm.status k = some st →
      pqm.status k' = some st' → l ∈ st.listeners → l ∈ st'.listeners → k = k')
    (o : RangeOrder) (ol : Cid → RangeOrder) :
    (closes (pqm.cleanupInProcessRequests o ol)).Nodup := by
  rw [closes_cleanupInProcessRequests, List.nodup_flatMap]
  refine ⟨fun e _ => RangeOrder.nodup_range.mpr e.2.listeners.keys_nodup, ?_⟩
  -- two statuses are of two CIDs, and nobody listens for both
  have hkeys : ((o.range pqm.inProgressRequestStatuses.pairs).map Prod.fst).Nodup := by
    rw [((o.range_perm _).map Prod.fst).nodup_iff, GoMap.map_fst_pairs]
    exact AList.keys_nodup _
  refine (List.pairwise_map.mp hkeys).imp_of_mem fun he he' hne l hl hl' => ?_
  exact hne (hone _ _ _ _ l (GoMap.mem_pairs.mp (RangeOrder.mem_range.mp he))
    (GoMap.mem_pairs.mp (RangeOrder.mem_range.mp he'))
    (AList.mem_keys.mpr (RangeOrder.mem_range.mp hl))
    (AList.mem_keys.mpr (RangeOrder.mem_range.mp hl')))

theorem listens_cleanupInProcessRequests {o : RangeOrder} {ol : Cid → RangeOrder} :
    listens (pqm.cleanupInProcessRequests o ol) = [] := by
  rw [cleanupInProcessRequests, listens, List.filterMap_flatMap, List.flatMap_eq_nil_iff]
  intro e _
  have h := listens_append (((ol e.1).range e.2.listeners.keys).map .close) [.cancelFn e.2.ctx]
  rw [listens_map_close] at h
  exact h

end ProviderQueryManager

/-! ## Queries and requests under way -/

/-- What the run loop is handling when it closes a listener. -/
inductive Occasion where
  | newQuery (k : Cid)
  | received (r : FindProviderRequest) (p : PeerID)
  | finished (r : FindProviderRequest)
  | cancel (l : ListenerID)
  | shutdown
  deriving DecidableEq

/-- The manager, whether its context is done and whether its loop has ended, and the
requests that have been passed on and have not finished.  Beside that, with which request
each listener was registered, and on which occasion it was closed. -/
structure ProviderQueries where
  pqm : ProviderQueryManager
  ctxDone : Bool
  stopped : Bool
  searching : List FindProviderRequest
  registered : List (ListenerID × FindProviderRequest)
  closed : List (ListenerID × Occasion)

namespace ProviderQueries

open QueryEffect ProviderQueryManager

/-- The messages that the loop may handle, those of a request with the request they come
from; the end of the context, and of the loop.  `cut` is the send of the handler that
finds the context done. -/
inductive Act where
  | newQuery (k : Cid) (cut : Option Nat)
  | received (r : FindProviderRequest) (p : PeerID) (o : RangeOrder) (cut : Option Nat)
  | finished (r : FindProviderRequest) (o : RangeOrder)
  | cancel (l : ListenerID) (k : Cid)
  | cancelContext
  | shutdown (o : RangeOrder) (ol : Cid → RangeOrder)

def start : ProviderQueries := ⟨.new, false, false, [], [], []⟩

/-- The state after a message has been handled. -/
def handled (s : ProviderQueries) (occasion : Occasion)
    (r : ProviderQueryManager × List QueryEffect) : ProviderQueries :=
  { s with
    pqm := r.1
    searching := s.searching ++ finds r.2
    registered := s.registered ++ listens r.2
    closed := s.closed ++ (closes r.2).map (·, occasion) }

/-- A send finds the context done only if it is. -/
def cut (s : ProviderQueries) (cut : Option Nat) : Option Nat := if s.ctxDone then cut else none

/-- The loop handles a message.  A request sends messages while it is under way, the last
when it has finished. -/
def handle (s : ProviderQueries) : Act → ProviderQueries
  | .newQuery k cut => s.handled (.newQuery k) (s.pqm.newProvideQuery k (s.cut cut))
  | .received r p o cut =>
      if r ∈ s.searching then
        s.handled (.received r p) (s.pqm.receivedProvider r.k p o (s.cut cut))
      else s
  | .finished r o =>
      if r ∈ s.searching then
        ({ s with searching := s.searching.erase r } : ProviderQueries).handled (.finished r)
          (s.pqm.finishedProviderQuery r.k o)
      else s
  | .cancel l k => s.handled (.cancel l) (s.pqm.cancelRequest l k)
  | .cancelContext => { s with ctxDone := true }
  | .shutdown o ol =>
      if s.ctxDone then
        { s.handled .shutdown (s.pqm, s.pqm.cleanupInProcessRequests o ol) with stopped := true }
      else s

/-- One step: nothing is handled once the loop has ended. -/
def step (s : ProviderQueries) (a : Act) : ProviderQueries := if s.stopped then s else s.handle a

/-- The listener was closed for a reason of its own: by its cancel, by the end of the
request it was registered with, or by the shutdown. -/
def OwnReason (s : ProviderQueries) (e : ListenerID × Occasion) : Prop :=
  match e.2 with
  | .cancel l => l = e.1
  | .finished r => (e.1, r) ∈ s.registered
  | .shutdown => True
  | .newQuery _ | .received _ _ => False

def OwnReasons (s : ProviderQueries) : Prop := ∀ e ∈ s.closed, s.OwnReason e

/-- A request that finishes is the one of the query in progress for its CID, if one with
listeners is in progress. -/
def Current (s : ProviderQueries) : Act → Prop
  | .finished r _ =>
      s.stopped = false → r ∈ s.searching →
        ∀ st ∈ s.pqm.status r.k, st.listeners.len ≠ 0 → st.ctx = r.ctx
  | _ => True

/-- Who listens is registered with the request of its query, each listener with one, and a
channel that is made is a new one. -/
structure Inv (s : ProviderQueries) : Prop where
  listed : ∀ k st, s.pqm.status k = some st → ∀ l ∈ st.listeners, (l, ⟨k, st.ctx⟩) ∈ s.registered
  once : ∀ l r r', (l, r) ∈ s.registered → (l, r') ∈ s.registered → r = r'
  fresh : ∀ e ∈ s.registered, e.1 < s.pqm.nextListener

theorem inv_start : start.Inv := by
  refine ⟨fun k st h => ?_, fun _ _ _ h => absurd h List.not_mem_nil,
    fun _ h => absurd h List.not_mem_nil⟩
  cases h

section Steps

variable {s s' : ProviderQueries}

theorem Inv.drops (h : s.Inv) {occasion : Occasion}
    {r : ProviderQueryManager × List QueryEffect} (hd : s.pqm.Drops r) :
    (s.handled occasion r).Inv := by
  have hreg : (s.handled occasion r).registered = s.registered := by
    rw [handled, hd.quiet, List.append_nil]
  refine ⟨fun k' st hst l hl => ?_, ?_, fun e he => ?_⟩
  · obtain ⟨st₀, hst₀, hctx, hsub⟩ := hd.status k' st hst
    rw [hreg, hctx]
    exact h.listed k' st₀ hst₀ l (hsub l hl)
  · rw [hreg]
    exact h.once
  · rw [hreg] at he
    exact hd.nextListener ▸ h.fresh e he

/-- A new query: its channel is new, and is registered with the request that is stored. -/
theorem inv_newQuery (h : s.Inv) (k : Cid) (cut : Option Nat) :
    (s.handle (.newQuery k cut)).Inv := by
  obtain ⟨st, hst, -, hcase⟩ := s.pqm.newProvideQuery_cases k (s.cut cut)
  have hold : ∀ l ∈ st.listeners, (l, ⟨k, st.ctx⟩) ∈ s.registered := by
    intro l hl
    rcases hst with hst | ⟨-, hempty⟩
    · exact h.listed k st hst l hl
    · rw [hempty] at hl
      exact absurd hl (AList.notMem_empty l)
  rw [handle, handled]
  rcases hcase with ⟨hlist, hstat, hnext⟩ | ⟨hlist, hstat, hnext⟩
  · rw [hlist, List.append_nil]
    refine ⟨fun k' st' hk' l hl => ?_, h.once, by rw [hnext]; exact h.fresh⟩
    rw [hstat] at hk'
    split at hk'
    · rename_i hkk
      subst hkk
      obtain rfl := Option.some.inj hk'
      exact hold l hl
    · exact h.listed k' st' hk' l hl
  · rw [hlist]
    have hnew : ∀ r, (s.pqm.nextListener, r) ∉ s.registered := fun r hr =>
      Nat.lt_irrefl _ (h.fresh _ hr)
    refine ⟨fun k' st' hk' l hl => ?_, fun l r r' hr hr' => ?_, fun e he => ?_⟩
    · rw [hstat] at hk'
      split at hk'
      · rename_i hkk
        subst hkk
        obtain rfl := Option.some.inj hk'
        rcases GoSet.mem_add.mp hl with rfl | hl
        · exact List.mem_append_right _ (List.mem_singleton_self _)
        · exact List.mem_append_left _ (hold l hl)
      · exact List.mem_append_left _ (h.listed k' st' hk' l hl)
    · rcases List.mem_append.mp hr with hr | hr <;> rcases List.mem_append.mp hr' with hr' | hr'
      · exact h.once l r r' hr hr'
      · cases List.mem_singleton.mp hr'
        exact absurd hr (hnew r)
      · cases List.mem_singleton.mp hr
        exact absurd hr' (hnew r')
      · cases List.mem_singleton.mp hr
        cases List.mem_singleton.mp hr'
        rfl
    · rw [hnext]
      rcases List.mem_append.mp he with he | he
      · exact Nat.lt_succ_of_lt (h.fresh e he)
      · cases List.mem_singleton.mp he
        exact Nat.lt_succ_self _

theorem inv_handle (h : s.Inv) (a : Act) : (s.handle a).Inv := by
  cases a with
  | newQuery k cut => exact inv_newQuery h k cut
  | received r p o cut =>
      rw [handle]
      split
      · exact h.drops (drops_receivedProvider p o (s.cut cut))
      · exact h
  | finished r o =>
      rw [handle]
      split
      · have h' : Inv { s with searching := s.searching.erase r } := ⟨h.listed, h.once, h.fresh⟩
        exact h'.drops (drops_finishedProviderQuery o)
      · exact h
  | cancel l k => exact h.drops (drops_cancelRequest l)
  | cancelContext => exact ⟨h.listed, h.once, h.fresh⟩
  | shutdown o ol =>
      rw [handle]
      split
      · rw [handled, listens_cleanupInProcessRequests, List.append_nil]
        exact ⟨h.listed, h.once, h.fresh⟩
      · exact h

theorem inv_step (h : s.Inv) (a : Act) : (s.step a).Inv := by
  rw [step]
  split
  · exact h
  · exact inv_handle h a

/-! ## The reasons -/

/-- A reason stays one when more listeners are registered. -/
theorem OwnReason.mono {e : ListenerID × Occasion} (h : s.OwnReason e)
    (hreg : ∀ x ∈ s.registered, x ∈ s'.registered) : s'.OwnReason e := by
  obtain ⟨l, occasion⟩ := e
  cases occasion with
  | finished r => exact hreg _ h
  | newQuery k => exact h
  | received r p => exact h
  | cancel l' => exact h
  | shutdown => trivial

/-- A message is handled: all that was closed before keeps its reason, and what is closed
now has to have one. -/
theorem ownReasons_handled (h : s.OwnReasons) {occasion : Occasion}
    {r : ProviderQueryManager × List QueryEffect}
    (hnew : ∀ l ∈ closes r.2, (s.handled occasion r).OwnReason (l, occasion)) :
    (s.handled occasion r).OwnReasons := by
  intro e he
  rcases List.mem_append.mp he with he | he
  · exact (h e he).mono fun x hx => List.mem_append_left _ hx
  · obtain ⟨l, hl, rfl⟩ := List.mem_map.mp he
    exact hnew l hl

theorem ownReasons_handle (h : s.Inv) (ho : s.OwnReasons) (a : Act) (hs : s.stopped = false)
    (hok : s.Current a) : (s.handle a).OwnReasons := by
  cases a with
  | newQuery k cut =>
      obtain ⟨-, -, hclose, -⟩ := s.pqm.newProvideQuery_cases k (s.cut cut)
      refine ownReasons_handled ho fun l hl => ?_
      rw [hclose] at hl
      cases hl
  | received r p o cut =>
      rw [handle]
      split
      · refine ownReasons_handled ho fun l hl => ?_
        rw [closes_receivedProvider] at hl
        cases hl
      · exact ho
  | finished r o =>
      rw [handle]
      split
      · rename_i hr
        refine ownReasons_handled (s := { s with searching := s.searching.erase r }) ho
          fun l hl => ?_
        rw [closes_finishedProviderQuery] at hl
        cases hst : s.pqm.status r.k with
        | none =>
            rw [hst] at hl
            cases hl
        | some st =>
            rw [hst, RangeOrder.mem_range] at hl
            have hctx : st.ctx = r.ctx :=
              hok hs hr st hst (GoMap.len_ne_zero.mpr ⟨l, AList.mem_keys.mpr hl⟩)
            have hreg := h.listed r.k st hst l (AList.mem_keys.mpr hl)
            rw [hctx] at hreg
            exact List.mem_append_left _ hreg
      · exact ho
  | cancel l k =>
      refine ownReasons_handled ho fun l' hl' => ?_
      exact (closes_cancelRequest hl').symm
  | cancelContext => exact ho
  | shutdown o ol =>
      rw [handle]
      split
      · exact ownReasons_handled ho fun l _ => trivial
      · exact ho

theorem ownReasons_step (h : s.Inv) (ho : s.OwnReasons) (a : Act) (hok : s.Current a) :
    (s.step a).OwnReasons := by
  rw [step]
  split
  · exact ho
  · rename_i hs
    exact ownReasons_handle h ho a (by simpa using hs) hok

/-- The end of a request that has been given up closes listeners that have nothing to do
with it. -/
theorem not_ownReasons_step (h : s.Inv) (a : Act) (hno : ¬ s.Current a) :
    ¬ (s.step a).OwnReasons := by
  cases a with
  | finished r o =>
      simp only [Current, not_forall] at hno
      obtain ⟨hs, hr, st, hst, hlen, hctx⟩ := hno
      obtain ⟨l, hl⟩ := GoMap.len_ne_zero.mp hlen
      intro ho
      rw [step, if_neg (by simp [hs]), handle, if_pos hr] at ho
      have hclosed : l ∈ closes (s.pqm.finishedProviderQuery r.k o).2 := by
        rw [closes_finishedProviderQuery, Option.mem_def.mp hst]
        exact RangeOrder.mem_range.mpr (AList.mem_keys.mp hl)
      have hown := ho (l, .finished r)
        (List.mem_append_right _ (List.mem_map.mpr ⟨l, hclosed, rfl⟩))
      have hreg : (l, r) ∈ s.registered := by
        have hown' : (l, r) ∈ s.registered ++
            listens (s.pqm.finishedProviderQuery r.k o).2 := hown
        rwa [(drops_finishedProviderQuery o).quiet, List.append_nil]
          at hown'
      have heq := h.once l _ r (h.listed r.k st hst l hl) hreg
      exact hctx (congrArg FindProviderRequest.ctx heq)
  | newQuery k cut => exact absurd trivial hno
  | received r p o cut => exact absurd trivial hno
  | cancel l k => exact absurd trivial hno
  | cancelContext => exact absurd trivial hno
  | shutdown o ol => exact absurd trivial hno

end Steps

/-- **A query ends for its own reason**, in every state of a run, just when no request
that was given up finishes while another query for its CID is in progress. -/
theorem always_ownReasons_iff (acts : List Act) :
    Always step OwnReasons start acts ↔ Meets step Current start acts := by
  refine always_iff_meets (I := fun s : ProviderQueries => s.Inv ∧ s.OwnReasons) (fun _ h => h.2)
    (fun s a h hok => ⟨inv_step h.1 a, ownReasons_step h.1 h.2 a hok⟩)
    (fun s a h hno => not_ownReasons_step h.1 a hno) acts ⟨inv_start, fun e he => ?_⟩
  exact absurd he List.not_mem_nil

/-- The only listener of a query cancels and a second query for the CID is started; the end
of the first request closes the second query's listener. -/
theorem closed_by_stale_request :
    let k : Cid := ⟨[1]⟩
    let r₀ : FindProviderRequest := ⟨k, 0⟩
    let r₁ : FindProviderRequest := ⟨k, 1⟩
    let acts : List Act := [.newQuery k none, .cancel 0 k, .newQuery k none, .finished r₀ .stored]
    let s := run step start acts
    s.registered = [(0, r₀), (1, r₁)] ∧ s.searching = [r₁] ∧
      s.closed = [(0, .cancel 0), (1, .finished r₀)] ∧ ¬ s.OwnReasons := by
  intro k r₀ r₁ acts s
  have hclosed : s.closed = [(0, .cancel 0), (1, .finished r₀)] := by decide
  refine ⟨by decide, by decide, hclosed, fun h => ?_⟩
  have hown : (1, r₀) ∈ s.registered := h (1, .finished r₀) (hclosed ▸ by simp)
  revert hown
  decide

end ProviderQueries

end BitswapAuth
