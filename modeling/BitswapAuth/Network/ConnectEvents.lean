/-
# `BitswapAuth.Network.ConnectEvents` — when a peer is announced

`connectEventManager` of the package `network`.  It is told of every connection that
is opened or closed, of peers that do not respond, and of messages that come in, and
it tells its listener when a peer can be talked to and when not any more.

What it is for is said by `Links`: of each peer the number of open connections and
whether it responds.  A peer is up if it has a connection and responds, and the
listener is to be told just when that changes (`wellFormed_events`).

`OnMessage` looks under the read lock whether there is anything to do, and takes the
write lock only then; between the two anything may happen.  It is two steps here.
-/
import BitswapAuth.Auth
import BitswapAuth.Lib.Run
import Mathlib.Logic.Function.Basic

namespace BitswapAuth

open Lib

/-- `connState`. -/
@[ext]
structure ConnState where
  refs : Int
  responsive : Bool
  deriving DecidableEq

/-- A call on the listener: `PeerConnected`, or else `PeerDisconnected`. -/
structure ConnEvent where
  peer : PeerID
  connected : Bool
  deriving DecidableEq

/-- `connectEventManager`. -/
structure ConnectEventManager where
  conns : GoMap PeerID ConnState

namespace ConnectEventManager

/-- `newConnectEventManager`. -/
def new : ConnectEventManager := ⟨∅⟩

/-- `Connected`. -/
def connected (c : ConnectEventManager) (p : PeerID) : ConnectEventManager × List ConnEvent :=
  let state := (c.conns.lookup p).getD ⟨0, true⟩
  let state := { state with refs := state.refs + 1 }
  (⟨c.conns.insert p state⟩, if state.refs = 1 ∧ state.responsive = true then [⟨p, true⟩] else [])

/-- `Disconnected`. -/
def disconnected (c : ConnectEventManager) (p : PeerID) : ConnectEventManager × List ConnEvent :=
  match c.conns.lookup p with
  -- should never happen, says the source
  | none => (c, [])
  | some state =>
      let state := { state with refs := state.refs - 1 }
      if state.refs = 0 then (⟨c.conns.erase p⟩, if state.responsive then [⟨p, false⟩] else [])
      else (⟨c.conns.insert p state⟩, [])

/-- `MarkUnresponsive`. -/
def markUnresponsive (c : ConnectEventManager) (p : PeerID) :
    ConnectEventManager × List ConnEvent :=
  match c.conns.lookup p with
  | none => (c, [])
  | some state =>
      if state.responsive then
        (⟨c.conns.insert p { state with responsive := false }⟩, [⟨p, false⟩])
      else (c, [])

/-- `OnMessage` under the read lock: whether it goes on to take the write lock. -/
def needsUpdate (c : ConnectEventManager) (p : PeerID) : Bool :=
  match c.conns.lookup p with
  | none => false
  | some state => !state.responsive

/-- `OnMessage` under the write lock. -/
def onMessage (c : ConnectEventManager) (p : PeerID) : ConnectEventManager × List ConnEvent :=
  match c.conns.lookup p with
  | none => (c, [])
  | some state =>
      if state.responsive then (c, [])
      else (⟨c.conns.insert p { state with responsive := true }⟩, [⟨p, true⟩])

end ConnectEventManager

/-! ## Calls in any order -/

/-- The manager, the calls of `OnMessage` that are about to take the write lock, and the
calls on the listener so far. -/
structure Connections where
  mgr : ConnectEventManager
  updating : List PeerID
  events : List ConnEvent

/-- The calls; `onMessage` is its check, and `update` the rest of one that found something
to do. -/
inductive ConnAct where
  | connected (p : PeerID)
  | disconnected (p : PeerID)
  | markUnresponsive (p : PeerID)
  | onMessage (p : PeerID)
  | update (i : Nat)

namespace Connections

def start : Connections := ⟨.new, [], []⟩

/-- What a call changes, and tells the listener. -/
def apply (s : Connections) (r : ConnectEventManager × List ConnEvent) : Connections :=
  { s with mgr := r.1, events := s.events ++ r.2 }

def step (s : Connections) : ConnAct → Connections
  | .connected p => s.apply (s.mgr.connected p)
  | .disconnected p => s.apply (s.mgr.disconnected p)
  | .markUnresponsive p => s.apply (s.mgr.markUnresponsive p)
  | .onMessage p => if s.mgr.needsUpdate p then { s with updating := s.updating ++ [p] } else s
  | .update i =>
      match s.updating[i]? with
      | none => s
      | some p => { s.apply (s.mgr.onMessage p) with updating := s.updating.eraseIdx i }

/-- What the listener was told of a peer. -/
def eventsOf (s : Connections) (p : PeerID) : List Bool :=
  (s.events.filter fun e => e.peer = p).map ConnEvent.connected

end Connections

/-! ## What it is for -/

/-- Of every peer, how many connections to it are open and whether it responds; and the
messages that are about to be taken note of. -/
structure Links where
  connections : PeerID → Nat
  responsive : PeerID → Bool
  updating : List PeerID

namespace Links

def start : Links := ⟨fun _ => 0, fun _ => true, []⟩

/-- The peer has a connection and responds. -/
def up (l : Links) (p : PeerID) : Bool := decide (0 < l.connections p) && l.responsive p

/-- A connection more; the first is to a peer that responds. -/
def connected (l : Links) (p : PeerID) : Links :=
  { l with
    connections := Function.update l.connections p (l.connections p + 1)
    responsive := Function.update l.responsive p (l.connections p = 0 || l.responsive p) }

/-- A connection less, if there is one. -/
def disconnected (l : Links) (p : PeerID) : Links :=
  { l with connections := Function.update l.connections p (l.connections p - 1) }

def respond (l : Links) (p : PeerID) (b : Bool) : Links :=
  { l with responsive := Function.update l.responsive p b }

/-- A message is taken note of only if it says something new of the peer. -/
def step (l : Links) : ConnAct → Links
  | .connected p => l.connected p
  | .disconnected p => l.disconnected p
  | .markUnresponsive p => l.respond p false
  | .onMessage p =>
      if 0 < l.connections p ∧ l.responsive p = false then
        { l with updating := l.updating ++ [p] }
      else l
  | .update i =>
      match l.updating[i]? with
      | none => l
      | some p => { l.respond p true with updating := l.updating.eraseIdx i }

/-- The entry that the manager has for a peer: none without a connection. -/
def entry (l : Links) (p : PeerID) : Option ConnState :=
  if l.connections p = 0 then none else some ⟨l.connections p, l.responsive p⟩

theorem entry_eq_none {l : Links} {p : PeerID} : l.entry p = none ↔ l.connections p = 0 := by
  rw [entry]
  split <;> simp_all

theorem entry_eq_some {l : Links} {p : PeerID} {state : ConnState} : l.entry p = some state ↔
    0 < l.connections p ∧ (l.connections p : Int) = state.refs ∧
      l.responsive p = state.responsive := by
  rw [entry]
  split
  · rename_i h0
    simp [h0]
  · rename_i h0
    rw [Option.some.injEq, ConnState.ext_iff, and_iff_right (Nat.pos_of_ne_zero h0)]

end Links

namespace Connections

/-- The manager has the entries it should have, and the listener was told of each change. -/
structure Follows (s : Connections) (l : Links) : Prop where
  entry : ∀ p, s.mgr.conns.lookup p = l.entry p
  updating : s.updating = l.updating
  events : ∀ p, LogsChanges (s.eventsOf p) (l.up p)

theorem follows_start : start.Follows Links.start := ⟨fun _ => rfl, rfl, fun _ => LogsChanges.nil⟩

section Steps

variable {s : Connections} {l l' : Links} {p : PeerID} {r : ConnectEventManager × List ConnEvent}

theorem eventsOf_apply {q : PeerID} : (s.apply r).eventsOf q =
    s.eventsOf q ++ (r.2.filter fun e => e.peer = q).map ConnEvent.connected := by
  rw [eventsOf, apply, List.filter_append, List.map_append]
  rfl

/-- A call that is about one peer: its entry is as it should be, and the listener is told
if the peer comes up or goes down. -/
theorem Follows.call (h : s.Follows l)
    (hconns : ∀ q, q ≠ p → r.1.conns.lookup q = s.mgr.conns.lookup q)
    (hlinks : ∀ q, q ≠ p → l'.connections q = l.connections q ∧ l'.responsive q = l.responsive q)
    (hupdating : l'.updating = l.updating) (hentry : r.1.conns.lookup p = l'.entry p)
    (htold : r.2 = if l'.up p = l.up p then [] else [⟨p, l'.up p⟩]) : (s.apply r).Follows l' := by
  refine ⟨fun q => ?_, h.updating.trans hupdating.symm, fun q => ?_⟩
  · by_cases hq : q = p
    · rw [hq]
      exact hentry
    · obtain ⟨hc, hr⟩ := hlinks q hq
      have hold := (hconns q hq).trans (h.entry q)
      rwa [Links.entry, ← hc, ← hr] at hold
  · have hlog := h.events q
    rw [eventsOf_apply, htold]
    by_cases hq : q = p
    · subst hq
      split
      · rename_i heq
        rw [heq]
        simpa using hlog
      · rename_i hne
        have hup : l'.up q = !l.up q := Bool.eq_not_of_ne hne
        rw [hup]
        simpa using hlog.append
    · obtain ⟨hc, hr⟩ := hlinks q hq
      have hup : l'.up q = l.up q := by rw [Links.up, Links.up, hc, hr]
      rw [hup]
      split
      · simpa using hlog
      · simpa [Ne.symm hq] using hlog

theorem Follows.connected (h : s.Follows l) :
    (s.apply (s.mgr.connected p)).Follows (l.connected p) := by
  refine h.call (fun q hq => AList.lookup_insert_ne hq) (fun q hq => ?_) rfl ?_ ?_
  · exact ⟨Function.update_of_ne hq _ _, Function.update_of_ne hq _ _⟩
  · refine (AList.lookup_insert _).trans (Links.entry_eq_some.mpr ?_).symm
    rw [h.entry]
    cases he : l.entry p with
    | none => simp [Links.connected, Links.entry_eq_none.mp he]
    | some state =>
        obtain ⟨hpos, hrefs, hresp⟩ := Links.entry_eq_some.mp he
        simp [Links.connected, hrefs, hresp, Nat.ne_of_gt hpos]
  · rw [ConnectEventManager.connected, h.entry]
    cases he : l.entry p with
    | none => simp [Links.up, Links.connected, Links.entry_eq_none.mp he]
    | some state =>
        obtain ⟨hpos, hrefs, -⟩ := Links.entry_eq_some.mp he
        have hne : state.refs + 1 ≠ 1 := by omega
        simp [Links.up, Links.connected, hpos, hne, Nat.ne_of_gt hpos]

theorem Follows.disconnected (h : s.Follows l) :
    (s.apply (s.mgr.disconnected p)).Follows (l.disconnected p) := by
  have hlinks : ∀ q, q ≠ p → (l.disconnected p).connections q = l.connections q ∧
      (l.disconnected p).responsive q = l.responsive q :=
    fun q hq => ⟨Function.update_of_ne hq _ _, rfl⟩
  rw [ConnectEventManager.disconnected, h.entry]
  cases he : l.entry p with
  | none =>
      have h0 := Links.entry_eq_none.mp he
      refine h.call (fun q _ => rfl) hlinks rfl ?_ ?_
      · rw [h.entry, he]
        exact (Links.entry_eq_none.mpr (by simp [Links.disconnected, h0])).symm
      · simp [Links.up, Links.disconnected, h0]
  | some state =>
      obtain ⟨hpos, hrefs, hresp⟩ := Links.entry_eq_some.mp he
      dsimp only
      split
      · -- the last connection
        rename_i hlast
        have h1 : l.connections p = 1 := by omega
        refine h.call (fun q hq => AList.lookup_erase_ne hq) hlinks rfl ?_ ?_
        · rw [AList.lookup_erase]
          exact (Links.entry_eq_none.mpr (by simp [Links.disconnected, h1])).symm
        · cases hr : state.responsive <;> simp [Links.up, Links.disconnected, h1, hresp, hr]
      · rename_i hmore
        have h2 : 0 < l.connections p - 1 := by omega
        refine h.call (fun q hq => AList.lookup_insert_ne hq) hlinks rfl ?_ ?_
        · refine (AList.lookup_insert _).trans (Links.entry_eq_some.mpr ?_).symm
          simp only [Links.disconnected, Function.update_self]
          exact ⟨h2, by omega, hresp⟩
        · simp [Links.up, Links.disconnected, h2, hpos]

/-- A call that changes whether a peer responds, if it has a connection. -/
theorem Follows.respond (h : s.Follows l) (b : Bool)
    (hnone : l.connections p = 0 → r = (s.mgr, []))
    (hsome : ∀ state, l.entry p = some state → state.responsive = b → r = (s.mgr, []))
    (hchange : ∀ state, l.entry p = some state → state.responsive ≠ b →
      r = (⟨s.mgr.conns.insert p { state with responsive := b }⟩, [⟨p, b⟩])) :
    (s.apply r).Follows (l.respond p b) := by
  have hlinks : ∀ q, q ≠ p → (l.respond p b).connections q = l.connections q ∧
      (l.respond p b).responsive q = l.responsive q :=
    fun q hq => ⟨rfl, Function.update_of_ne hq _ _⟩
  have hself : (l.respond p b).responsive p = b := Function.update_self _ _ _
  cases he : l.entry p with
  | none =>
      have h0 : l.connections p = 0 := Links.entry_eq_none.mp he
      have hnew : (l.respond p b).entry p = none := Links.entry_eq_none.mpr h0
      rw [hnone h0]
      refine h.call (fun q _ => rfl) hlinks rfl ?_ ?_
      · rw [h.entry, he, hnew]
      · simp [Links.up, Links.respond, h0]
  | some state =>
      obtain ⟨hpos, hrefs, hresp⟩ := Links.entry_eq_some.mp he
      have hnew : (l.respond p b).entry p = some { state with responsive := b } :=
        Links.entry_eq_some.mpr ⟨hpos, hrefs, hself⟩
      have hup : (l.respond p b).up p = b ∧ l.up p = state.responsive := by
        rw [Links.up, Links.up, hself, hresp, Links.respond]
        simp [hpos]
      by_cases hb : state.responsive = b
      · rw [hsome state he hb]
        refine h.call (fun q _ => rfl) hlinks rfl ?_ ?_
        · rw [h.entry, he, hnew, ← hb]
        · rw [hup.1, hup.2, if_pos hb.symm]
      · rw [hchange state he hb]
        refine h.call (fun q hq => AList.lookup_insert_ne hq) hlinks rfl ?_ ?_
        · rw [AList.lookup_insert, hnew]
        · rw [hup.1, hup.2, if_neg (Ne.symm hb)]

theorem Follows.step (h : s.Follows l) (a : ConnAct) : (s.step a).Follows (l.step a) := by
  cases a with
  | connected p => exact h.connected
  | disconnected p => exact h.disconnected
  | markUnresponsive p =>
      refine h.respond false (fun h0 => ?_) (fun state he hb => ?_) fun state he hb => ?_
      · rw [ConnectEventManager.markUnresponsive, h.entry, Links.entry_eq_none.mpr h0]
      · rw [ConnectEventManager.markUnresponsive, h.entry, he]
        simp [hb]
      · rw [ConnectEventManager.markUnresponsive, h.entry, he]
        simp [hb]
  | onMessage p =>
      have hneeds : s.mgr.needsUpdate p = true ↔ 0 < l.connections p ∧ l.responsive p = false := by
        rw [ConnectEventManager.needsUpdate, h.entry]
        cases he : l.entry p with
        | none => simp [Links.entry_eq_none.mp he]
        | some state =>
            obtain ⟨hpos, -, hresp⟩ := Links.entry_eq_some.mp he
            simp [hpos, hresp]
      rw [Connections.step, Links.step]
      split
      · rename_i hn
        rw [if_pos (hneeds.mp hn)]
        exact ⟨h.entry, congrArg (· ++ [p]) h.updating, h.events⟩
      · rename_i hn
        rw [if_neg (mt hneeds.mpr hn)]
        exact h
  | update i =>
      rw [Connections.step, Links.step, h.updating]
      cases l.updating[i]? with
      | none => exact h
      | some p =>
          have hf : (s.apply (s.mgr.onMessage p)).Follows (l.respond p true) := by
            refine h.respond true (fun h0 => ?_) (fun state he hb => ?_) fun state he hb => ?_
            · rw [ConnectEventManager.onMessage, h.entry, Links.entry_eq_none.mpr h0]
            · rw [ConnectEventManager.onMessage, h.entry, he]
              simp [hb]
            · rw [ConnectEventManager.onMessage, h.entry, he]
              simp [hb]
          exact ⟨hf.entry, rfl, hf.events⟩

end Steps

/-- **Connection events are well formed**, after any calls in any order: of every peer the
listener is told by turns that it is connected and that it is disconnected, beginning with
connected; the last it was told is that the peer is connected just when the peer has an
open connection and responds; and an entry that is stored counts the open connections, of
which there is one at least. -/
theorem wellFormed_events (acts : List ConnAct) (p : PeerID) :
    let s := run step start acts
    let l := run Links.step Links.start acts
    Alternates true (s.eventsOf p) ∧
      ((s.eventsOf p).getLast? = some true ↔ 0 < l.connections p ∧ l.responsive p = true) ∧
      s.mgr.conns.lookup p = l.entry p ∧
      ∀ state, s.mgr.conns.lookup p = some state → 0 < state.refs := by
  intro s l
  have hstep : ∀ (s : Connections) (l : Links) (a : ConnAct), s.Follows l →
      (s.step a).Follows (l.step a) := fun _ _ a h => h.step a
  have h : s.Follows l := run_simulates hstep acts follows_start
  obtain ⟨halt, hlast⟩ := h.events p
  refine ⟨halt, ?_, h.entry p, fun state hs => ?_⟩
  · rw [show (0 < l.connections p ∧ l.responsive p = true) ↔ l.up p = true by simp [Links.up],
      ← hlast]
    cases (s.eventsOf p).getLast? with
    | none => simp
    | some b => simp
  · obtain ⟨hpos, hrefs, -⟩ := Links.entry_eq_some.mp ((h.entry p).symm.trans hs)
    omega

end Connections

end BitswapAuth
