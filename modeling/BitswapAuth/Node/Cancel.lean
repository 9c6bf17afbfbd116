/-
# `BitswapAuth.Node.Cancel` — what a cancelled call leaves behind

When the context of a call of `GetBlocks` is done, `handleIncoming` sends the
CIDs it is left without to the run loop, which takes them out of the session's
queue.  It then calls the sender with the wants of the operation; but an
operation that carries CIDs carries no wants.  So the sender goes on tracking
the wants, the session's entries with the interest manager stay for as long as
the session does, and `CancelSessionWants` is never called.
-/
import BitswapAuth.Node.Moves

namespace BitswapAuth

open Lib

namespace Node

/-! ## Entries last as long as their session -/

section

variable {n : Node} {sid : SessionID} {w : Want} {i : Nat} {t : Receive}

theorem sim_want (i : Nat) (skip : Bool) : (n.want i skip).sim = n.sim := by
  rcases n.want_cases i skip with he | ⟨r, -, -, he | he⟩ <;> rw [he] <;> rfl

theorem sim_finish (i : Nat) (lost skip : Bool) : (n.finish i lost skip).sim = n.sim := by
  rcases n.finish_cases i lost skip with he | ⟨r, -, -, -, ⟨-, he⟩ | he⟩ <;> rw [he] <;> rfl

theorem sim_tell (ids : List SessionID) : (n.tell i t ids).sim = n.sim := by
  cases ids with
  | nil => rfl
  | cons sid ids =>
      rw [Node.tell]
      split <;> rfl

theorem sim_update (sid : SessionID) (ks haves dontHaves : List Want) (ids : List SessionID) :
    (n.update i t sid ks haves dontHaves ids).sim = n.sim := by
  rcases n.update_cases i t sid ks haves dontHaves ids with he | ⟨-, he⟩ | ⟨s, -, he⟩ <;>
    rw [he] <;> rfl

theorem sim_receive (sid : SessionID) (ks : List Want) (ids : List SessionID) (skip : Bool) :
    (n.receive i sid ks ids skip).sim = n.sim := by
  rcases n.receive_cases i sid ks ids skip with he | ⟨-, he⟩ | ⟨s, -, he⟩ <;> rw [he] <;> rfl

theorem sim_receiveStep (i : Nat) (o : RangeOrder) (skip : Bool) :
    (n.receiveStep i o skip).sim = n.sim := by
  rw [Node.receiveStep]
  split
  · rfl
  · split
    · rfl
    · rfl
    · exact sim_tell _
    · exact sim_update _ _ _ _ _
    · exact sim_receive _ _ _ _
    · rw [Node.publish]
      split <;> rfl

/-- No operation takes an entry away. -/
theorem findAfter_ne_none {now : Time} {s : Session} {sim : SessionInterestManager}
    {oper : Session.Op} (h : sim.find sid w ≠ none) : s.findAfter now sim oper sid w ≠ none := by
  obtain ⟨op, keys, wants⟩ := oper
  cases op with
  | opReceive =>
      simp only [Session.findAfter]
      split
      · simpa using h
      · exact h
  | opWant =>
      simp only [Session.findAfter]
      split
      · simp
      · exact h
  | opCancel | opWantsSent | opBroadcast => exact h

/-- An entry stays, unless its session is removed. -/
theorem Wf.find_keeps (hwf : n.Wf) (h : n.sim.find sid w ≠ none) (a : Action)
    (ha : ∀ o, a ≠ .removeSession sid o) : (n.step a).sim.find sid w ≠ none := by
  cases a with
  | newSession sid' rng d d' =>
      rw [Node.step]
      split <;> exact h
  | takeOp sid' now =>
      show (n.takeOp sid' now).sim.find sid w ≠ none
      rw [Node.takeOp]
      split
      · exact h
      · rename_i s _
        split
        · rename_i oper rest _ _
          dsimp only
          rw [(Session.handled_handle now { s with incoming := rest } n.sim oper).find]
          exact findAfter_ne_none h
        · exact h
  | onChange sid' =>
      show (n.onChange sid').sim.find sid w ≠ none
      rw [(hwf.called_onChange sid').sim]
      exact h
  | removeSession sid' o =>
      have hne : sid ≠ sid' := fun he => ha o (he ▸ rfl)
      show (n.removeSession sid' o).sim.find sid w ≠ none
      rw [Node.removeSession]
      split
      · exact h
      · split
        · rw [SessionInterestManager.find_removeSession, if_neg hne]
          exact h
        · exact h
  | getBlocks sid' wants =>
      rw [Node.step]
      split <;> exact h
  | want i skip => exact (sim_want (n := n) i skip).symm ▸ h
  | finish i lost skip => exact (sim_finish (n := n) i lost skip).symm ▸ h
  | receiveStep i o skip => exact (sim_receiveStep (n := n) i o skip).symm ▸ h
  | add | sendFirst | cancelWants | enterOp | signal | enterChange | provider | fireIdle
  | idleTick | fireSearch | periodicSearch | setBaseTickDelay | shutdown | cancel | unsubscribe
  | deliver | receiveBlocksFrom => exact h

theorem Wf.find_step (hwf : n.Wf) (h : n.sim.find sid w ≠ none) (a : Action)
    (hs : sid ∈ (n.step a).sessions) : (n.step a).sim.find sid w ≠ none := by
  by_cases ha : ∃ o, a = .removeSession sid o
  · obtain ⟨o, rfl⟩ := ha
    revert hs
    show sid ∈ (n.removeSession sid o).sessions → (n.removeSession sid o).sim.find sid w ≠ none
    rw [Node.removeSession]
    split
    · exact fun _ => h
    · split
      · exact fun hs => absurd rfl (AList.mem_erase.mp hs).1
      · exact fun _ => h
  · exact hwf.find_keeps h a fun o ho => ha ⟨o, ho⟩

/-- **Interest lasts**: while a session is there, what it was ever interested in has an
entry with the interest manager, whoever has cancelled what. -/
theorem interest_lasts (as₀ as : List Action) (hf : (run step start as₀).sim.find sid w ≠ none)
    (hs : Always step (fun n => sid ∈ n.sessions) (run step start as₀) as) :
    (run step (run step start as₀) as).sim.find sid w ≠ none := by
  have hrun : ∀ (as : List Action) {n : Node}, n.Wf → n.sim.find sid w ≠ none →
      Always step (fun n => sid ∈ n.sessions) n as → (run step n as).sim.find sid w ≠ none := by
    intro as
    induction as with
    | nil => exact fun _ hf _ => hf
    | cons a as ih =>
        intro n hwf hf hs
        exact ih (hwf.step a) (hwf.find_step hf a hs.2.head) hs.2
  exact hrun as (wf_run as₀) hf hs

end

/-! ## Cancelled calls -/

/-- No other open call of the session asks for the want. -/
def UnaskedElse (n : Node) (i : Nat) (sid : SessionID) (w : Want) : Prop :=
  ∀ j < n.requests.length, ∀ r ∈ n.requests[j]?, j ≠ i → ¬ r.Asks sid w

instance (n : Node) (i : Nat) (sid : SessionID) (w : Want) : Decidable (n.UnaskedElse i sid w) :=
  inferInstanceAs (Decidable (∀ j < _, ∀ r ∈ n.requests[j]?, _))

/-- A want that the call is left without when it ends, and that no other open call of
its session asks for. -/
def Leftover (n : Node) (i : Nat) (lost : Bool) (w : Want) : Prop :=
  ∃ r ∈ n.requests[i]?, w ∈ r.wants ∧ w.cid ∈ r.left lost ∧ n.UnaskedElse i r.session w

instance (n : Node) (i : Nat) (lost : Bool) (w : Want) : Decidable (n.Leftover i lost w) :=
  inferInstanceAs (Decidable (∃ r ∈ n.requests[i]?, _ ∧ _ ∧ n.UnaskedElse i r.session w))

/-- **The leftover wants of a call are released**: the sender no longer tracks them and
the session has no entry for them, unless another call has asked for them since, and one
call of `CancelSessionWants` was for just these.  The call ends in `n₀`, its session is `s`
in `n₁`. -/
structure Released (n₀ : Node) (i : Nat) (lost : Bool) (n₁ : Node) (sid : SessionID)
    (s : Session) : Prop where
  untracked : ∀ w, n₀.Leftover i lost w → n₁.Unasked sid w → w ∉ s.sws.wants
  uninterested : ∀ w, n₀.Leftover i lost w → n₁.Unasked sid w → n₁.sim.find sid w = none
  called : (∃ w, n₀.Leftover i lost w) → ∃ ws, (sid, ws) ∈ n₁.cancels.drop n₀.cancels.length ∧
    ∀ w, w ∈ ws ↔ n₀.Leftover i lost w

/-- **A cancelled call releases its wants only if it has none to release.**  The
context of the call is done in `n₀` and the call ends; then anything may happen, and
in `n₁` both loops of its session have gone through all that was sent to them.  Besides,
if the session was there all the time, no entry that it had in `n₀` has gone. -/
theorem released_iff (as₀ as₁ : List Action) (i : Nat) (lost : Bool) :
    let n₀ := run step start as₀
    let n₁ := run step n₀ (.finish i lost false :: as₁)
    ∀ r ∈ n₀.requests[i]?, r.cancelled = true → r.closed = false →
      ∀ s ∈ n₁.sessions.lookup r.session, s.done = false → s.Drained →
        (n₀.Released i lost n₁ r.session s ↔ ∀ w, ¬ n₀.Leftover i lost w) ∧
        (Always step (fun n => r.session ∈ n.sessions) n₀ (.finish i lost false :: as₁) →
          ∀ w, n₀.sim.find r.session w ≠ none → n₁.sim.find r.session w ≠ none) := by
  intro n₀ n₁ r _ _ _ s _ _ _
  have hnone : n₁.cancels = [] := by
    have h := (wf_run (as₀ ++ .finish i lost false :: as₁)).cancels
    rwa [run_append] at h
  refine ⟨⟨fun h w hw => ?_, fun h => ?_⟩, fun hs w hf => interest_lasts as₀ _ hf hs⟩
  · obtain ⟨ws, hws, -⟩ := h.called ⟨w, hw⟩
    rw [hnone] at hws
    simp at hws
  · exact ⟨fun w hw => absurd hw (h w), fun w hw => absurd hw (h w),
      fun ⟨w, hw⟩ => absurd hw (h w)⟩

/-- One want asked for and passed to the sender, and the call cancelled: the session is still
down as interested in it. -/
theorem released_iff_one_want :
    let w : Want := ⟨⟨[1]⟩, [5]⟩
    let as₀ : List Action := [.newSession 1 (fun _ => .plain) 1 1, .getBlocks 1 [w],
      .want 0 false, .takeOp 1 1, .add 1, .sendFirst 1 1, .onChange 1, .cancel 0]
    let n₀ := run step start as₀
    let n₁ := run step n₀ [.finish 0 false false, .takeOp 1 2, .onChange 1]
    ∃ r ∈ n₀.requests[0]?, r.cancelled = true ∧ r.closed = false ∧
      ∃ s ∈ n₁.sessions.lookup r.session, s.done = false ∧ s.Drained ∧
        (n₀.Released 0 false n₁ r.session s ↔ ∀ w, ¬ n₀.Leftover 0 false w) ∧
        n₁.sim.find r.session w ≠ none := by
  intro w as₀ n₀ n₁
  have h : ∃ r ∈ n₀.requests[0]?, r.cancelled = true ∧ r.closed = false ∧
      (∃ s ∈ n₁.sessions.lookup r.session, s.done = false ∧ s.Drained) ∧
      Always step (fun n => r.session ∈ n.sessions) n₀
        [.finish 0 false false, .takeOp 1 2, .onChange 1] ∧
      n₀.sim.find r.session w ≠ none := by decide
  obtain ⟨r, hr, hcancelled, hclosed, ⟨s, hs, hdone, hdrained⟩, hthere, hfind⟩ := h
  have hiff := released_iff as₀ [.takeOp 1 2, .onChange 1] 0 false r hr hcancelled hclosed s hs
    hdone hdrained
  exact ⟨r, hr, hcancelled, hclosed, s, hs, hdone, hdrained, hiff.1, hiff.2 hthere w hfind⟩

/-- The same run: everything has been gone through, and the want is tracked, the
session is down as interested in it, and `CancelSessionWants` was not called. -/
theorem tracked_after_cancel :
    let w : Want := ⟨⟨[1]⟩, [5]⟩
    let n₀ := run step start [.newSession 1 (fun _ => .plain) 1 1, .getBlocks 1 [w],
      .want 0 false, .takeOp 1 1, .add 1, .sendFirst 1 1, .onChange 1, .cancel 0]
    let n₁ := run step n₀ [.finish 0 false false, .takeOp 1 2, .onChange 1]
    n₀.Leftover 0 false w ∧ n₁.Unasked 1 w ∧ n₁.sim.find 1 w = some true ∧ n₁.cancels = [] ∧
      ∃ s ∈ n₁.sessions.lookup 1, s.done = false ∧ s.Drained ∧ w ∈ s.sws.wants ∧
        ¬ n₀.Released 0 false n₁ 1 s := by
  intro w n₀ n₁
  have hleft : n₀.Leftover 0 false w := by decide
  have hun : n₁.Unasked 1 w := by decide
  have h : ∃ s ∈ n₁.sessions.lookup 1, s.done = false ∧ s.Drained ∧ w ∈ s.sws.wants := by
    decide
  obtain ⟨s, hs, hdone, hdrained, htracked⟩ := h
  exact ⟨hleft, hun, by decide, by decide, s, hs, hdone, hdrained, htracked,
    fun hr => hr.untracked w hleft hun htracked⟩

end Node

end BitswapAuth
