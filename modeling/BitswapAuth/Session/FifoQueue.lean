/-
# `BitswapAuth.Session.FifoQueue` — the fetch queue as a queue

What `cidQueue` is for is a queue without repetitions: a want goes to the end unless its block is
queued already, it leaves at the front or when it is removed.  `Fifo` has that list beside the
queue of the code, which keeps two things,

    eset     the CIDs that are queued
    elems    the wants in the order they came, and what is left of those that were removed

`Remove` changes the set only.  As long as the elements that are left over stay outside the set
they are skipped: `Pop` drops them one by one and `Cids` all together.  One whose CID is pushed
again comes back to life at its old place, and the queue has the want twice.

So the queue is what it is for just if no want is pushed while an element of its CID is left over
(`fifo_iff`).
-/
import BitswapAuth.Session.Wants

namespace BitswapAuth

open Lib

namespace CidQueue

/-- The elements whose CIDs are in the set. -/
def queued (cq : CidQueue) : List Want := cq.elems.filter fun w => cq.has w.cid

theorem mem_queued {cq : CidQueue} {w : Want} : w ∈ cq.queued ↔ cq.Queued w := by
  rw [queued, List.mem_filter, Queued]

/-- The loop of `Pop` finds the first element whose CID is in the set. -/
theorem popLoop_fst (eset : GoSet Cid) : ∀ l : List Want,
    (popLoop eset l).1 = ((l.filter fun w => eset.has w.cid).head?).getD .undefined
  | [] => rfl
  | out :: l => by
      rw [popLoop]
      rw [List.filter_cons]
      cases hout : eset.has out.cid with
      | true => rfl
      | false => exact popLoop_fst eset l

theorem pop_fst (cq : CidQueue) : cq.pop.1 = (cq.queued.head?).getD .undefined :=
  popLoop_fst cq.eset cq.elems

theorem popLoop_of_none {eset : GoSet Cid} : ∀ {l : List Want},
    (∀ w ∈ l, eset.has w.cid = false) → popLoop eset l = (.undefined, [], eset)
  | [], _ => rfl
  | out :: l, h => by
      obtain ⟨hout, hl⟩ := List.forall_mem_cons.mp h
      rw [popLoop, if_neg (by simp [hout])]
      exact popLoop_of_none hl

end CidQueue

/-! ## The queue and the list it stands for -/

/-- The queue of the code, and the wants that were pushed while their CIDs were not queued and
were neither popped nor removed since, in the order of these pushes. -/
structure Fifo where
  cq : CidQueue
  list : List Want

namespace Fifo

inductive Op where
  | push (w : Want)
  | pop
  | remove (c : Cid)
  | cids
  | len

def start : Fifo := ⟨.new, []⟩

def step (s : Fifo) : Op → Fifo
  | .push w => ⟨s.cq.push w, if w.cid ∈ s.list.map Want.cid then s.list else s.list ++ [w]⟩
  | .pop => ⟨s.cq.pop.2, s.list.erase s.cq.pop.1⟩
  | .remove c => ⟨s.cq.remove c, s.list.filter fun w => w.cid ≠ c⟩
  | .cids => ⟨s.cq.cids.2, s.list⟩
  | .len => s

/-- What the next call of a method returns is what the list says.  The undefined want stands for
none, so it says that the list is empty unless it is in it. -/
structure Faithful (s : Fifo) : Prop where
  pop : s.cq.pop.1 = s.list.head?.getD .undefined
  none : .undefined ∉ s.list → (s.cq.pop.1 = .undefined ↔ s.list = [])
  cids : s.cq.cids.1 = s.list
  len : s.cq.len = s.list.length

/-- A want that is pushed anew finds no element of its CID that is left over. -/
def NoStale (s : Fifo) : Op → Prop
  | .push w => s.cq.has w.cid = false → ∀ k ∈ s.cq.elems, k.cid ≠ w.cid
  | .pop | .remove _ | .cids | .len => True

/-- The list is what is queued, and has one want of a CID. -/
structure Inv (s : Fifo) : Prop where
  queued : s.cq.queued = s.list
  nodup : (s.list.map Want.cid).Nodup

theorem inv_start : start.Inv := ⟨rfl, List.nodup_nil⟩

section

variable {s : Fifo}

theorem Inv.mem_cids (h : s.Inv) {c : Cid} : c ∈ s.list.map Want.cid ↔ s.cq.has c = true := by
  rw [List.mem_map, ← h.queued]
  constructor
  · rintro ⟨w, hw, rfl⟩
    exact (CidQueue.mem_queued.mp hw).2
  · intro hc
    obtain ⟨w, hw, rfl⟩ := s.cq.held c (GoSet.has_eq_true.mp hc)
    exact ⟨w, CidQueue.mem_queued.mpr ⟨hw, hc⟩, rfl⟩

/-- The set has a CID for every want of the list. -/
theorem Inv.len (h : s.Inv) : s.cq.len = s.list.length := by
  have hperm : s.cq.eset.keys.Perm (s.list.map Want.cid) := by
    refine (List.perm_ext_iff_of_nodup s.cq.eset.keys_nodup h.nodup).mpr fun c => ?_
    rw [h.mem_cids, ← AList.mem_keys]
    exact GoSet.has_eq_true.symm
  rw [CidQueue.len, GoMap.len, hperm.length_eq, List.length_map]

theorem Inv.kept (h : s.Inv) : s.cq.kept = s.list := by
  have hlen : s.cq.eset.len = s.cq.queued.length := h.queued ▸ h.len
  rw [CidQueue.kept]
  split
  · exact h.queued
  · rename_i hle
    -- a list that is no longer than the set has nothing to leave out
    rw [hlen, not_lt] at hle
    have hall : s.cq.queued = s.cq.elems :=
      List.filter_sublist.eq_of_length (le_antisymm List.filter_sublist.length_le hle)
    rw [← hall]
    exact h.queued

theorem Inv.faithful (h : s.Inv) : s.Faithful := by
  have hpop : s.cq.pop.1 = s.list.head?.getD .undefined := h.queued ▸ s.cq.pop_fst
  refine ⟨hpop, fun hno => ?_, h.kept, h.len⟩
  rw [hpop]
  cases hl : s.list with
  | nil => simp
  | cons w l =>
      refine ⟨fun hw => absurd ?_ hno, fun hw => absurd hw (by simp)⟩
      have hw : w = .undefined := hw
      rw [hl, hw]
      exact List.mem_cons_self

/-! ## The steps -/

theorem Inv.push (h : s.Inv) (w : Want) (hok : s.NoStale (.push w)) : (s.step (.push w)).Inv := by
  rw [step]
  cases hw : s.cq.has w.cid with
  | true =>
      have hpush : s.cq.push w = s.cq := if_pos hw
      rw [hpush, if_pos (h.mem_cids.mpr hw)]
      exact h
  | false =>
      have hno : w.cid ∉ s.list.map Want.cid := fun hin => by
        rw [h.mem_cids.mp hin] at hw
        cases hw
      have hpush : (s.cq.push w).elems = s.cq.elems ++ [w] := by
        rw [CidQueue.push, if_neg (by simpa [CidQueue.has] using hw)]
      rw [if_neg hno]
      refine ⟨?_, ?_⟩
      · show (s.cq.push w).elems.filter _ = _
        rw [hpush, List.filter_append, List.filter_singleton,
          CidQueue.has_push.mpr (.inl rfl), ← h.queued]
        -- the elements that were there are of other CIDs
        refine congrArg (· ++ [w]) (List.filter_congr fun k hk => ?_)
        rw [Bool.eq_iff_iff, CidQueue.has_push]
        exact ⟨fun hor => hor.resolve_left (hok hw k hk), .inr⟩
      · rw [List.map_append, List.map_singleton]
        exact List.nodup_append_comm.mp (List.nodup_cons.mpr ⟨hno, h.nodup⟩)

/-- A queue that is not empty gives its first want, and the others are left. -/
theorem Inv.pop_of_popped (h : s.Inv) (hp : CidQueue.Popped s.cq s.cq.pop.1 s.cq.pop.2) :
    (s.step .pop).Inv := by
  obtain ⟨stale, hl, hstale⟩ := hp.split
  have hlist : s.list = s.cq.pop.1 :: s.cq.pop.2.elems.filter fun w => s.cq.has w.cid := by
    have hnone : (stale.filter fun w => s.cq.has w.cid) = [] :=
      List.filter_eq_nil_iff.mpr fun k hk => by simp [hstale k hk]
    rw [← h.queued, CidQueue.queued, hl, List.filter_append, hnone, List.nil_append,
      List.filter_cons, if_pos hp.has]
  have hnd := h.nodup
  rw [hlist, List.map_cons, List.nodup_cons] at hnd
  have hstep : (s.step .pop).list = s.cq.pop.2.elems.filter fun w => s.cq.has w.cid := by
    show s.list.erase s.cq.pop.1 = _
    rw [hlist, List.erase_cons_head]
  refine ⟨?_, hstep ▸ hnd.2⟩
  rw [hstep]
  refine List.filter_congr fun k hk => ?_
  show s.cq.pop.2.has k.cid = _
  rw [Bool.eq_iff_iff, hp.left]
  refine ⟨And.right, fun hin => ⟨fun he => ?_, hin⟩⟩
  -- a second element of the CID that was popped would be in the list
  exact hnd.1 (he ▸ List.mem_map.mpr ⟨k, List.mem_filter.mpr ⟨hk, hin⟩, rfl⟩)

theorem Inv.pop (h : s.Inv) : (s.step .pop).Inv := by
  by_cases hlen : s.cq.len = 0
  · have hnone : ∀ w ∈ s.cq.elems, s.cq.eset.has w.cid = false := fun w _ =>
      GoSet.has_eq_false.mpr (GoMap.len_eq_zero.mp hlen w.cid)
    have helems : s.cq.pop.2.elems = [] := congrArg (·.2.1) (CidQueue.popLoop_of_none hnone)
    have hlist : s.list = [] := List.length_eq_zero_iff.mp (h.len.symm.trans hlen)
    have hstep : (s.step .pop).list = [] := by
      show s.list.erase _ = _
      rw [hlist]
      rfl
    refine ⟨?_, hstep ▸ List.nodup_nil⟩
    rw [hstep]
    show s.cq.pop.2.elems.filter _ = _
    rw [helems]
    rfl
  · exact h.pop_of_popped (CidQueue.popped_pop hlen)

theorem Inv.remove (h : s.Inv) (c : Cid) : (s.step (.remove c)).Inv := by
  refine ⟨?_, h.nodup.sublist (List.filter_sublist.map _)⟩
  show s.cq.elems.filter _ = s.list.filter _
  rw [← h.queued, CidQueue.queued, List.filter_filter]
  refine List.filter_congr fun k _ => ?_
  show (s.cq.remove c).has k.cid = _
  rw [Bool.eq_iff_iff, CidQueue.has_remove, Bool.and_eq_true, decide_eq_true_iff]

theorem Inv.cids (h : s.Inv) : (s.step .cids).Inv := by
  refine ⟨?_, h.nodup⟩
  show s.cq.kept.filter _ = s.list
  rw [h.kept]
  refine List.filter_eq_self.mpr fun w hw => ?_
  exact h.mem_cids.mp (List.mem_map.mpr ⟨w, hw, rfl⟩)

theorem inv_step (s : Fifo) (op : Op) (h : s.Inv) (hok : s.NoStale op) : (s.step op).Inv := by
  cases op with
  | push w => exact h.push w hok
  | pop => exact h.pop
  | remove c => exact h.remove c
  | cids => exact h.cids
  | len => exact h

/-- A want that is pushed onto an element left over is queued twice. -/
theorem not_faithful_step (s : Fifo) (op : Op) (h : s.Inv) (hno : ¬ s.NoStale op) :
    ¬ (s.step op).Faithful := by
  cases op with
  | push w =>
      simp only [NoStale, not_forall, not_not] at hno
      obtain ⟨hw, k, hk, hkw⟩ := hno
      have hpush : (s.cq.push w).elems = s.cq.elems ++ [w] := by
        rw [CidQueue.push, if_neg (by simpa [CidQueue.has] using hw)]
      have hnew : w.cid ∉ s.list.map Want.cid := fun hin => by
        rw [h.mem_cids.mp hin] at hw
        cases hw
      have hstep : (s.step (.push w)).list = s.list ++ [w] := if_neg hnew
      -- `Cids` returns the element left over before the one that was pushed
      have hkept : ∃ l, (s.cq.push w).kept = l ++ [w] ∧ k ∈ l := by
        rw [CidQueue.kept, hpush]
        split
        · rw [List.filter_append, List.filter_singleton]
          have hin : (s.cq.push w).eset.has w.cid = true := CidQueue.has_push.mpr (.inl rfl)
          rw [hin]
          exact ⟨_, rfl, List.mem_filter.mpr ⟨hk, hkw ▸ hin⟩⟩
        · exact ⟨_, rfl, hk⟩
      intro hf
      obtain ⟨l, hl, hkl⟩ := hkept
      have heq : l ++ [w] = s.list ++ [w] := hl.symm.trans (hf.cids.trans hstep)
      rw [List.append_cancel_right heq] at hkl
      exact hnew (hkw ▸ List.mem_map.mpr ⟨k, hkl, rfl⟩)
  | pop => exact absurd trivial hno
  | remove c => exact absurd trivial hno
  | cids => exact absurd trivial hno
  | len => exact absurd trivial hno

end

/-- **The fetch queue is a queue without repetitions**, in every state of a run, just if no want
is pushed while an element of its CID is left over from a removal. -/
theorem fifo_iff (ops : List Op) :
    Always step Faithful start ops ↔ Meets step NoStale start ops :=
  always_iff_meets (fun _ h => h.faithful) inv_step not_faithful_step ops inv_start

/-- The first of two wants is removed and pushed again: it is popped first and listed twice. -/
theorem popped_out_of_turn :
    let a : Want := ⟨⟨[1]⟩, []⟩
    let b : Want := ⟨⟨[2]⟩, []⟩
    let ops : List Op := [.push a, .push b, .remove a.cid, .push a]
    let s := run step start ops
    (∀ w w', Op.push w ∈ ops → Op.push w' ∈ ops → w.cid = w'.cid → w = w') ∧
      s.list = [b, a] ∧ s.cq.pop.1 = a ∧ s.cq.cids.1 = [a, b, a] ∧ s.cq.len = 2 ∧
      ¬ s.Faithful := by
  intro a b ops s
  have hpop : s.cq.pop.1 = a := by decide
  have hlist : s.list = [b, a] := by decide
  refine ⟨?_, hlist, hpop, by decide, by decide, fun hf => ?_⟩
  · have hpushed : ∀ w, Op.push w ∈ ops → w = a ∨ w = b := by simp [ops]
    intro w w' hw hw' hc
    rcases hpushed w hw with rfl | rfl <;> rcases hpushed w' hw' with rfl | rfl
    · rfl
    · exact absurd hc (by decide)
    · exact absurd hc (by decide)
    · rfl
  · have hfirst := hf.pop
    rw [hpop, hlist] at hfirst
    revert hfirst
    decide

end Fifo

end BitswapAuth
