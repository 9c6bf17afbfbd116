/-
# `BitswapAuth.Session.Marks` — the marks a session puts on its peers

`SessionPeerManager` tags the peers of a session at the connection manager, and
protects those that have sent a block.  When the session ends the marks are to go.
`handleShutdown` does this in three steps, while the loop of the want sender is
still running:

    stage       step of `handleShutdown`              the loop
    running                                           runs
                sprm.Shutdown: untag all peers
    untagged                                          runs
                sws.Shutdown: cancel its context
    cancelled                                         may take changes still
                ... and wait until the loop has left
    closed                                            has left
                sm.RemoveSession
    removed

Before the first step a peer is tagged just if it is in the session.  But the peers
stay in the set when they are untagged, and nothing keeps the loop from adding
another peer or protecting one afterwards: that mark stays for good.  If it does
neither, no mark is left (`marks_cleared`).
-/
import BitswapAuth.Session.WantSender
import BitswapAuth.Lib.Run

namespace BitswapAuth

open Lib

namespace SessionPeerManager

/-- `Shutdown`, with the order in which the peers are visited. -/
def shutdown (spm : SessionPeerManager) (o : RangeOrder) : SessionPeerManager :=
  (o.range spm.peers.keys).foldl
    (fun spm p => { spm with tagged := spm.tagged.remove p, guarded := spm.guarded.remove p }) spm

/-- The operations the want sender makes on the session's peers. -/
inductive Op where
  | addPeer (p : PeerID)
  | removePeer (p : PeerID)
  | protectConnection (p : PeerID)
  deriving DecidableEq

def apply (spm : SessionPeerManager) : Op → SessionPeerManager
  | .addPeer p => (spm.addPeer p).1
  | .removePeer p => (spm.removePeer p).1
  | .protectConnection p => spm.protectConnection p

/-- A peer is tagged just if it is in the session, and protected only if it is. -/
structure Marked (spm : SessionPeerManager) : Prop where
  tagged : ∀ p, p ∈ spm.tagged ↔ p ∈ spm.peers
  guarded : ∀ p ∈ spm.guarded, p ∈ spm.peers

/-- No peer has a mark. -/
def NoMarks (spm : SessionPeerManager) : Prop := ∀ p, p ∉ spm.tagged ∧ p ∉ spm.guarded

/-- The operation puts a mark on a peer: the peer is new, or it is there and is protected. -/
def Marks (spm : SessionPeerManager) : Op → Prop
  | .addPeer p => p ∉ spm.peers
  | .removePeer _ => False
  | .protectConnection p => p ∈ spm.peers

variable {spm : SessionPeerManager}

theorem marked_new : new.Marked := ⟨fun p => by simp [new], fun p h => by simp [new] at h⟩

theorem marked_apply (h : spm.Marked) (op : Op) : (spm.apply op).Marked := by
  cases op with
  | addPeer p =>
      by_cases hp : p ∈ spm.peers
      · rw [apply, addPeer_of_mem hp]
        exact h
      · rw [apply, addPeer_of_notMem hp]
        refine ⟨fun q => ?_, fun q hq => GoSet.mem_add.mpr (.inr (h.guarded q hq))⟩
        rw [GoSet.mem_add, GoSet.mem_add, h.tagged]
  | removePeer p =>
      by_cases hp : p ∈ spm.peers
      · rw [apply, removePeer_of_mem hp]
        refine ⟨fun q => ?_, fun q hq => ?_⟩
        · rw [GoSet.mem_remove, GoSet.mem_remove, h.tagged]
        · obtain ⟨hne, hq⟩ := GoSet.mem_remove.mp hq
          exact GoSet.mem_remove.mpr ⟨hne, h.guarded q hq⟩
      · rw [apply, removePeer_of_notMem hp]
        exact h
  | protectConnection p =>
      rw [apply, protectConnection]
      split
      · rename_i hp
        refine ⟨h.tagged, fun q hq => ?_⟩
        rcases GoSet.mem_add.mp hq with rfl | hq
        · exact GoSet.has_eq_true.mp hp
        · exact h.guarded q hq
      · exact h

/-- An operation that puts no mark on a peer leaves none. -/
theorem noMarks_apply (h : spm.NoMarks) {op : Op} (hop : ¬ spm.Marks op) :
    (spm.apply op).NoMarks := by
  cases op with
  | addPeer p =>
      rw [apply, addPeer_of_mem (not_not.mp hop)]
      exact h
  | removePeer p =>
      by_cases hp : p ∈ spm.peers
      · rw [apply, removePeer_of_mem hp]
        exact fun q => ⟨fun hq => (h q).1 (GoSet.mem_remove.mp hq).2,
          fun hq => (h q).2 (GoSet.mem_remove.mp hq).2⟩
      · rw [apply, removePeer_of_notMem hp]
        exact h
  | protectConnection p =>
      rw [apply, protectConnection, if_neg fun hp => hop (GoSet.has_eq_true.mp hp)]
      exact h

/-- Of marks that are where they should be `Shutdown` leaves none. -/
theorem noMarks_shutdown (h : spm.Marked) (o : RangeOrder) : (spm.shutdown o).NoMarks := by
  have htagged : (spm.shutdown o).tagged = (o.range spm.peers.keys).foldl GoSet.remove spm.tagged :=
    (List.foldl_hom SessionPeerManager.tagged fun _ _ => rfl).symm
  have hguarded :
      (spm.shutdown o).guarded = (o.range spm.peers.keys).foldl GoSet.remove spm.guarded :=
    (List.foldl_hom SessionPeerManager.guarded fun _ _ => rfl).symm
  intro p
  rw [htagged, hguarded, GoSet.mem_foldl_remove, GoSet.mem_foldl_remove, RangeOrder.mem_range]
  constructor
  · rintro ⟨hp, hno⟩
    exact hno ((h.tagged p).mp hp)
  · rintro ⟨hp, hno⟩
    exact hno (h.guarded p hp)

end SessionPeerManager

/-! ## The end of a session -/

/-- How far `handleShutdown` has come. -/
inductive Stage where
  | running
  | untagged
  | cancelled
  | closed
  | removed
  deriving DecidableEq

/-- The peers of a session while it ends. -/
structure Closing where
  spm : SessionPeerManager
  stage : Stage

namespace Closing

inductive Act where
  /-- The loop of the want sender makes an operation. -/
  | loop (op : SessionPeerManager.Op)
  /-- `sprm.Shutdown`. -/
  | shutdownPeers (o : RangeOrder)
  /-- The first half of `sws.Shutdown`: the context is cancelled. -/
  | cancelSender
  /-- The loop sees that, and leaves; the second half of `sws.Shutdown` has waited for it. -/
  | exitLoop
  /-- `sm.RemoveSession`. -/
  | removeSession

/-- The loop has not left. -/
def LoopRuns (s : Closing) : Prop :=
  s.stage = .running ∨ s.stage = .untagged ∨ s.stage = .cancelled

instance (s : Closing) : Decidable s.LoopRuns :=
  inferInstanceAs (Decidable (_ ∨ _ ∨ _))

/-- One step; a step whose turn it is not does nothing. -/
def step (s : Closing) : Act → Closing
  | .loop op => if s.LoopRuns then { s with spm := s.spm.apply op } else s
  | .shutdownPeers o =>
      if s.stage = .running then ⟨s.spm.shutdown o, .untagged⟩ else s
  | .cancelSender => if s.stage = .untagged then { s with stage := .cancelled } else s
  | .exitLoop => if s.stage = .cancelled then { s with stage := .closed } else s
  | .removeSession => if s.stage = .closed then { s with stage := .removed } else s

/-- A session that has no peers yet. -/
def start : Closing := ⟨.new, .running⟩

/-- The loop puts a mark on a peer when the marks have been taken away. -/
def LateMark (s : Closing) : Act → Prop
  | .loop op => s.LoopRuns ∧ s.stage ≠ .running ∧ s.spm.Marks op
  | _ => False

/-- Before the shutdown the marks are on the session's peers, and after it there are none. -/
structure Inv (s : Closing) : Prop where
  before : s.stage = .running → s.spm.Marked
  after : s.stage ≠ .running → s.spm.NoMarks

/-- **What a step can do**: nothing, an operation of the loop, the untagging, or a later stage. -/
theorem step_cases (s : Closing) (a : Act) :
    s.step a = s ∨
      (∃ op, a = .loop op ∧ s.LoopRuns ∧ s.step a = { s with spm := s.spm.apply op }) ∨
      (s.stage = .running ∧ ∃ o, s.step a = ⟨s.spm.shutdown o, .untagged⟩) ∨
      (s.stage ≠ .running ∧ ∃ stage, stage ≠ .running ∧ s.step a = { s with stage := stage }) := by
  cases a with
  | loop op =>
      by_cases hruns : s.LoopRuns
      · exact .inr (.inl ⟨op, rfl, hruns, if_pos hruns⟩)
      · exact .inl (if_neg hruns)
  | shutdownPeers o =>
      by_cases hs : s.stage = .running
      · exact .inr (.inr (.inl ⟨hs, o, if_pos hs⟩))
      · exact .inl (if_neg hs)
  | cancelSender =>
      by_cases hs : s.stage = .untagged
      · exact .inr (.inr (.inr ⟨by simp [hs], .cancelled, by simp, if_pos hs⟩))
      · exact .inl (if_neg hs)
  | exitLoop =>
      by_cases hs : s.stage = .cancelled
      · exact .inr (.inr (.inr ⟨by simp [hs], .closed, by simp, if_pos hs⟩))
      · exact .inl (if_neg hs)
  | removeSession =>
      by_cases hs : s.stage = .closed
      · exact .inr (.inr (.inr ⟨by simp [hs], .removed, by simp, if_pos hs⟩))
      · exact .inl (if_neg hs)

theorem marked_step {s : Closing} (h : s.stage = .running → s.spm.Marked) (a : Act) :
    (s.step a).stage = .running → (s.step a).spm.Marked := by
  rcases s.step_cases a with he | ⟨op, -, -, he⟩ | ⟨-, o, he⟩ | ⟨-, stage, hne, he⟩
  · rw [he]
    exact h
  · rw [he]
    exact fun hr => SessionPeerManager.marked_apply (h hr) op
  · rw [he]
    intro hr
    cases hr
  · rw [he]
    exact fun hr => absurd hr hne

theorem inv_step {s : Closing} (h : s.Inv) {a : Act} (hok : ¬ s.LateMark a) : (s.step a).Inv := by
  refine ⟨marked_step h.before a, ?_⟩
  rcases s.step_cases a with he | ⟨op, rfl, hruns, he⟩ | ⟨hr, o, he⟩ | ⟨hr, stage, -, he⟩
  · rw [he]
    exact h.after
  · rw [he]
    exact fun hr => SessionPeerManager.noMarks_apply (h.after hr) fun hm => hok ⟨hruns, hr, hm⟩
  · rw [he]
    exact fun _ => SessionPeerManager.noMarks_shutdown (h.before hr) o
  · rw [he]
    exact fun _ => h.after hr

theorem inv_start : start.Inv :=
  ⟨fun _ => SessionPeerManager.marked_new, fun h => absurd rfl h⟩

/-- **No mark is left behind.**  In every interleaving of the shutdown with the loop a peer is
tagged before the shutdown just if it is in the session, and protected only if it is; and if
the loop puts no mark on a peer once the peers have been untagged, no peer has a mark when the
session is removed. -/
theorem marks_cleared (as : List Act) :
    Always step (fun s => s.stage = .running → s.spm.Marked) start as ∧
      (Meets step (fun s a => ¬ s.LateMark a) start as →
        Always step (fun s => s.stage = .removed → s.spm.NoMarks) start as) := by
  constructor
  · have hstep : ∀ (s : Closing) (a : Act), (s.stage = .running → s.spm.Marked) → True →
        (s.step a).stage = .running → (s.step a).spm.Marked := fun _ a h _ => marked_step h a
    refine always_of_meets (fun _ h => h) hstep as (fun _ => SessionPeerManager.marked_new) ?_
    exact (meets_iff_forall_append as start).mpr fun _ _ _ _ => trivial
  · intro hok
    have hremoved : ∀ s : Closing, s.Inv → s.stage = .removed → s.spm.NoMarks := by
      intro s h hr
      exact h.after (by rw [hr]; decide)
    exact always_of_meets hremoved (fun _ _ h hok => inv_step h hok) as inv_start hok

/-- A peer leaves while the session is ending. -/
theorem marks_cleared_late_removal :
    let p : PeerID := ⟨[7]⟩
    let q : PeerID := ⟨[8]⟩
    let s := run step start [.loop (.addPeer p), .loop (.addPeer q), .loop (.protectConnection p),
      .shutdownPeers .stored, .loop (.removePeer q), .cancelSender, .exitLoop, .removeSession]
    s.stage = .removed ∧ s.spm.NoMarks := by
  intro p q s
  refine ⟨by decide, ?_⟩
  refine ((marks_cleared _).2 ?_).last (by decide)
  refine ⟨fun h => h.2.1 rfl, fun h => h.2.1 rfl, fun h => h.2.1 rfl, id, fun h => h.2.2, id, id,
    id, trivial⟩

/-! ## The loop of the want sender -/

/-- One state of the peers leads to another by operations of the loop. -/
def Reaches (spm spm' : SessionPeerManager) : Prop :=
  ∃ ops, spm' = run SessionPeerManager.apply spm ops

theorem Reaches.of_eq {spm spm' : SessionPeerManager} (h : spm' = spm) : Reaches spm spm' :=
  ⟨[], h⟩

theorem Reaches.trans {a b c : SessionPeerManager} (h : Reaches a b) (h' : Reaches b c) :
    Reaches a c := by
  obtain ⟨ops, rfl⟩ := h
  obtain ⟨ops', rfl⟩ := h'
  exact ⟨ops ++ ops', (run_append a ops ops').symm⟩

theorem Reaches.foldl {S α : Type} {p : S → SessionPeerManager} {f : S → α → S}
    (hf : ∀ s a, Reaches (p s) (p (f s a))) :
    ∀ (l : List α) (s : S), Reaches (p s) (p (l.foldl f s))
  | [], _ => .of_eq rfl
  | a :: l, s => (hf s a).trans (Reaches.foldl hf l (f s a))

end Closing

namespace SessionWantSender

open Closing

variable {bpm : BlockPresenceManager}

theorem reaches_peer (s : Shift) (e : PeerID × Bool) :
    Reaches s.sws.spm (Shift.peer bpm s e).sws.spm := by
  have hr : Reaches s.sws.spm
      (if e.2 then s.sws.spm.addPeer e.1 else s.sws.spm.removePeer e.1).1 := by
    cases e.2 with
    | true => exact ⟨[.addPeer e.1], rfl⟩
    | false => exact ⟨[.removePeer e.1], rfl⟩
  rw [Shift.peer]
  dsimp only
  generalize (if e.2 then s.sws.spm.addPeer e.1 else s.sws.spm.removePeer e.1) = r at hr
  split
  · exact hr.trans (.of_eq (congrArg Aside.spm (aside_updateWantsPeerAvailability ..)))
  · exact .of_eq rfl

theorem reaches_receiveKey (sender : PeerID) (sws : SessionWantSender) (c : Want) :
    Reaches sws.spm (receiveKey sender sws c).spm := by
  rw [receiveKey]
  dsimp only
  split
  · exact ⟨[.protectConnection sender], rfl⟩
  · exact .of_eq rfl

theorem spm_onDontHave (blkCids : GoSet Want) (sender : PeerID) (s : Answers) (w : Want) :
    (s.onDontHave bpm blkCids sender w).sws.spm = s.sws.spm := by
  have hcount : (s.countDontHave sender).sws.spm = s.sws.spm := by
    rw [Answers.countDontHave]
    dsimp only
    split <;> rfl
  rw [Answers.onDontHave]
  split
  · exact hcount
  · exact (congrArg Aside.spm (aside_answerDontHave ..)).trans hcount

theorem spm_onHave (blkCids : GoSet Want) (sender : PeerID) (s : Answers) (w : Want) :
    (s.onHave bpm blkCids sender w).sws.spm = s.sws.spm := by
  show (if blkCids.has w then s.sws else _).spm = _
  split
  · rfl
  · exact congrArg Aside.spm (aside_updateWantBlockPresence ..)

theorem reaches_processUpdates (updates : List Update) (sws : SessionWantSender) :
    Reaches sws.spm (sws.processUpdates bpm updates).1.spm := by
  have hkeys : Reaches sws.spm
      ((items Update.ks updates).foldl (fun sws i => receiveKey i.1 sws i.2) sws).spm :=
    Reaches.foldl (f := fun sws (i : PeerID × Want) => receiveKey i.1 sws i.2)
      (fun s i => reaches_receiveKey i.1 s i.2) _ sws
  refine hkeys.trans (.of_eq ?_)
  rw [processUpdates]
  dsimp only
  refine Eq.trans (foldl_keeps (fun s : Answers => s.sws.spm)
    (fun s (i : PeerID × Want) => spm_onHave _ i.1 s i.2) _ _) ?_
  exact foldl_keeps (fun s : Answers => s.sws.spm)
    (fun s (i : PeerID × Want) => spm_onDontHave _ i.1 s i.2) _ _

/-- What a turn does to the session's peers it does by the operations of the loop. -/
theorem reaches_onChange (changes : List Change) (sws : SessionWantSender) :
    Reaches sws.spm (sws.onChange bpm changes).1.spm := by
  have hcollect : (sws.collect bpm changes).sws.spm = sws.spm :=
    congrArg Aside.spm (aside_collect changes sws)
  have hav : Reaches sws.spm ((sws.collect bpm changes).sws.processAvailability bpm
      (sws.collect bpm changes).availability).sws.spm :=
    (Reaches.of_eq hcollect).trans
      (Reaches.foldl (p := fun s : Shift => s.sws.spm) reaches_peer _ _)
  exact (hav.trans (reaches_processUpdates _ _)).trans
    (.of_eq (congrArg Prod.fst (byPeer_onChange bpm changes sws)))

/-- **A turn is a run of the loop.**  Until the loop has left, whatever the want sender does to
the session's peers in a turn is reached by steps of the loop. -/
theorem turn_refines (changes : List Change) (sws : SessionWantSender) {stage : Stage}
    (hruns : (⟨sws.spm, stage⟩ : Closing).LoopRuns) :
    ∃ ops : List SessionPeerManager.Op,
      run Closing.step ⟨sws.spm, stage⟩ (ops.map .loop) =
        ⟨(sws.onChange bpm changes).1.spm, stage⟩ := by
  obtain ⟨ops, hops⟩ := @reaches_onChange bpm changes sws
  refine ⟨ops, ?_⟩
  rw [hops]
  clear hops
  generalize sws.spm = spm at hruns
  induction ops generalizing spm with
  | nil => rfl
  | cons op ops ih =>
      have hstep : Closing.step ⟨spm, stage⟩ (.loop op) = ⟨spm.apply op, stage⟩ := if_pos hruns
      show run Closing.step (Closing.step ⟨spm, stage⟩ (.loop op)) (ops.map .loop) = _
      rw [hstep]
      exact ih (spm.apply op) hruns

end SessionWantSender

namespace Closing

/-- A HAVE from a peer and a block from another are in the want sender's channel when the
session's peers are untagged.  The loop takes them before it leaves: the one peer stays
tagged, the other protected. -/
theorem marked_after_removal :
    let p : PeerID := ⟨[7]⟩
    let q : PeerID := ⟨[8]⟩
    let w : Want := ⟨⟨[1]⟩, []⟩
    let w' : Want := ⟨⟨[2]⟩, []⟩
    let sws := ((SessionWantSender.new 1 fun _ => .plain).onChange .new
      [{ add := [w, w'] }, { availability := ⟨q, true⟩ }]).1
    let changes : List Change := [{ update := ⟨p, [], [w], []⟩ }, { update := ⟨q, [w'], [], []⟩ }]
    let spm := ({ sws with spm := sws.spm.shutdown .stored }.onChange .new changes).1.spm
    let s := run step start [.loop (.addPeer q), .shutdownPeers .stored, .loop (.addPeer p),
      .loop (.protectConnection q), .cancelSender, .exitLoop, .removeSession]
    spm.tagged.keys = [p] ∧ spm.guarded.keys = [q] ∧
      s.stage = .removed ∧ s.spm.tagged.keys = [p] ∧ s.spm.guarded.keys = [q] := by
  decide

end Closing

end BitswapAuth
