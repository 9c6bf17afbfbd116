/-
# `BitswapAuth.Decision.TaskMerger` — several tasks for one want

The request queue keeps one pending task for a want of a peer.  A task that is
pushed while one is pending is merged into it (`merge`); one that is pushed while
tasks for the want are being answered is dropped if it brings nothing new
(`hasNewInfo`).

A task says of its want whether the block is asked for and whether it is there.
On these two flags merging is a join, and the sizes follow from the flags
(`mergeAll_join`).  Two things are lost all the same.

    active              pushed            answered by
    DONT_HAVE, HAVE     the block         neither of the two: `hasNewInfo` joins the
                                          flags of all active tasks, and a response is
                                          made for one of them

    pending             merged            when the block cannot be read
    without the flag    SendDontHave      nothing: `merge` keeps the flag of the task
                                          that came first
-/
import BitswapAuth.Decision.Batch

namespace BitswapAuth

open Lib

namespace TaskMerger

/-- `HasNewInfo`. -/
def hasNewInfo (task : Task) (existing : List Task) : Bool :=
  let s := existing.foldl (fun (s : Bool × Bool) et =>
    (if et.data.haveBlock then true else s.1, if et.data.isWantBlock then true else s.2))
    (false, false)
  let haveSize := s.1
  let isWantBlock := s.2
  -- there is no active want-block, and the new task is one
  if !isWantBlock && task.data.isWantBlock then true
  -- there is no size information, and the new task has it
  else if !haveSize && task.data.haveBlock then true
  else false

/-- The first update of `Merge`: block size information that is new. -/
def takeSize (task existing : Task) : Task :=
  if !existing.data.haveBlock && task.data.haveBlock then
    { existing with
      data := { existing.data with
        haveBlock := task.data.haveBlock, blockSize := task.data.blockSize } }
  else existing

/-- The second: a want-have is replaced by a want-block. -/
def takeType (task existing : Task) : Task :=
  if !existing.data.isWantBlock && task.data.isWantBlock then
    -- the want-have was a DONT_HAVE, or the want-block has a size
    if !existing.data.haveBlock || task.data.haveBlock then
      { existing with
        work := task.work
        data := { existing.data with isWantBlock := true, haveBlock := task.data.haveBlock } }
    else { existing with data := { existing.data with isWantBlock := true } }
  else existing

/-- The third: the whole block will be sent. -/
def fixWork (existing : Task) : Task :=
  if existing.data.isWantBlock && existing.data.haveBlock then
    { existing with work := existing.data.blockSize }
  else existing

/-- `Merge`: what the existing task is once the new one is merged into it. -/
def merge (task existing : Task) : Task := fixWork (takeType task (takeSize task existing))

/-- The pending task after some more have been pushed, one after the other. -/
def mergeAll (t : Task) (ts : List Task) : Task :=
  ts.foldl (fun existing task => merge task existing) t

/-! ## One merge -/

section Merge

variable (task existing : Task)

theorem haveBlock_merge : (merge task existing).data.haveBlock =
    (existing.data.haveBlock || task.data.haveBlock) := by
  obtain ⟨_, _, _, _, h, b, _⟩ := existing
  obtain ⟨_, _, _, _, h', b', _⟩ := task
  cases h <;> cases b <;> cases h' <;> cases b' <;> rfl

theorem isWantBlock_merge : (merge task existing).data.isWantBlock =
    (existing.data.isWantBlock || task.data.isWantBlock) := by
  obtain ⟨_, _, _, _, h, b, _⟩ := existing
  obtain ⟨_, _, _, _, h', b', _⟩ := task
  cases h <;> cases b <;> cases h' <;> cases b' <;> rfl

/-- No update touches the flag. -/
theorem sendDontHave_merge :
    (merge task existing).data.sendDontHave = existing.data.sendDontHave := by
  have hfix : ∀ t : Task, (fixWork t).data.sendDontHave = t.data.sendDontHave := by
    intro t
    rw [fixWork]
    split <;> rfl
  have htype : ∀ t : Task, (takeType task t).data.sendDontHave = t.data.sendDontHave := by
    intro t
    rw [takeType]
    split
    · split <;> rfl
    · rfl
  rw [merge, hfix, htype, takeSize]
  split <;> rfl

end Merge

/-! ## Well-formed tasks -/

end TaskMerger

/-- A task for the want as the engine makes it, the want's block being of the given size. -/
structure Task.WellFormed (w : Want) (size : Nat) (t : Task) : Prop where
  topic : t.topic = w
  work : t.work =
    if t.data.isWantBlock && t.data.haveBlock then size else blockPresenceSize w
  blockSize : t.data.blockSize = if t.data.haveBlock then size else 0

theorem Engine.wellFormed_foundTask (e : Engine) (c : Want) (priority : Int32)
    (wantType : WantType) (size : Nat) (sendDontHave : Bool) :
    (e.foundTask c priority wantType size sendDontHave).WellFormed c size := by
  refine ⟨rfl, ?_, rfl⟩
  show (if e.sendAsBlock wantType size then size else _) = _
  rw [show (e.foundTask c priority wantType size sendDontHave).data.haveBlock = true from rfl,
    Bool.and_true]
  rfl

namespace TaskMerger

theorem wellFormed_merge {w : Want} {size : Nat} {task existing : Task}
    (h : existing.WellFormed w size) (h' : task.WellFormed w size) :
    (merge task existing).WellFormed w size := by
  obtain ⟨topic, priority, work, blockSize, have₀, block₀, dont⟩ := existing
  obtain ⟨topic', priority', work', blockSize', have₁, block₁, dont'⟩ := task
  have hw : work = if block₀ && have₀ then size else blockPresenceSize w := h.work
  have hs : blockSize = if have₀ then size else 0 := h.blockSize
  have hw' : work' = if block₁ && have₁ then size else blockPresenceSize w := h'.work
  have hs' : blockSize' = if have₁ then size else 0 := h'.blockSize
  have ht : topic = w := h.topic
  clear h h'
  -- the flags decide which of the updates are made
  cases have₀ <;> cases block₀ <;> cases have₁ <;> cases block₁ <;>
    (subst hw hs hw' hs'; exact ⟨ht, rfl, rfl⟩)

/-! ## A pending task after any number of merges -/

theorem haveBlock_mergeAll : ∀ (ts : List Task) (t : Task),
    (mergeAll t ts).data.haveBlock = (t :: ts).any (·.data.haveBlock)
  | [], t => by simp [mergeAll]
  | x :: ts, t => by
      have ih := haveBlock_mergeAll ts (merge x t)
      rw [List.any_cons, haveBlock_merge, Bool.or_assoc] at ih
      exact ih

theorem isWantBlock_mergeAll : ∀ (ts : List Task) (t : Task),
    (mergeAll t ts).data.isWantBlock = (t :: ts).any (·.data.isWantBlock)
  | [], t => by simp [mergeAll]
  | x :: ts, t => by
      have ih := isWantBlock_mergeAll ts (merge x t)
      rw [List.any_cons, isWantBlock_merge, Bool.or_assoc] at ih
      exact ih

theorem sendDontHave_mergeAll (t : Task) (ts : List Task) :
    (mergeAll t ts).data.sendDontHave = t.data.sendDontHave :=
  foldl_keeps (fun t : Task => t.data.sendDontHave) (fun s a => sendDontHave_merge a s) ts t

theorem wellFormed_mergeAll {w : Want} {size : Nat} : ∀ (ts : List Task) {t : Task},
    (∀ x ∈ t :: ts, x.WellFormed w size) → (mergeAll t ts).WellFormed w size
  | [], t, h => h t List.mem_cons_self
  | x :: ts, t, h => by
      have hx : x.WellFormed w size := h x (List.mem_cons_of_mem t List.mem_cons_self)
      refine wellFormed_mergeAll ts (t := merge x t) fun y hy => ?_
      rcases List.mem_cons.mp hy with rfl | hy
      · exact wellFormed_merge (h t List.mem_cons_self) hx
      · exact h y (List.mem_cons_of_mem t (List.mem_cons_of_mem x hy))

/-- The sizes of a well-formed task follow from its flags. -/
theorem sizes_of_flags {w : Want} {size : Nat} {t t' : Task} (h : t.WellFormed w size)
    (h' : t'.WellFormed w size) (hb : t'.data.isWantBlock = t.data.isWantBlock)
    (hh : t'.data.haveBlock = t.data.haveBlock) :
    t'.work = t.work ∧ t'.data.blockSize = t.data.blockSize := by
  constructor
  · rw [h'.work, h.work, hb, hh]
  · rw [h'.blockSize, h.blockSize, hh]

/-- **Merging is a join.**  Well-formed tasks for one want merge, in any order, into a
well-formed task that asks for the block if one of them does and has it if one of them does;
its sizes depend only on which tasks were merged. -/
theorem mergeAll_join (w : Want) (size : Nat) (t : Task) (ts : List Task)
    (h : ∀ x ∈ t :: ts, x.WellFormed w size) :
    (mergeAll t ts).WellFormed w size ∧
      (mergeAll t ts).data.isWantBlock = (t :: ts).any (·.data.isWantBlock) ∧
      (mergeAll t ts).data.haveBlock = (t :: ts).any (·.data.haveBlock) ∧
      ∀ t' ts', (∀ x, x ∈ t' :: ts' ↔ x ∈ t :: ts) →
        (mergeAll t' ts').work = (mergeAll t ts).work ∧
          (mergeAll t' ts').data.blockSize = (mergeAll t ts).data.blockSize := by
  refine ⟨wellFormed_mergeAll ts h, isWantBlock_mergeAll ts t, haveBlock_mergeAll ts t,
    fun t' ts' hsame => ?_⟩
  have hany : ∀ f : Task → Bool, (t' :: ts').any f = (t :: ts).any f := by
    intro f
    rw [Bool.eq_iff_iff, List.any_eq_true, List.any_eq_true]
    exact exists_congr fun x => and_congr_left fun _ => hsame x
  refine sizes_of_flags (wellFormed_mergeAll ts h)
    (wellFormed_mergeAll ts' fun x hx => h x ((hsame x).mp hx)) ?_ ?_
  · rw [isWantBlock_mergeAll, isWantBlock_mergeAll, hany]
  · rw [haveBlock_mergeAll, haveBlock_mergeAll, hany]

/-- A want-block whose block is missing and a want-have whose block is there, in the one order
and in the other: the block will be sent. -/
theorem mergeAll_join_two_orders :
    let w : Want := ⟨⟨[1]⟩, [65]⟩
    let e := Engine.new ⟨.ofContent ∅, fun _ _ _ _ => true⟩
    let missing : Task := ⟨w, 1, blockPresenceSize w, ⟨0, false, true, true⟩⟩
    let found := e.foundTask w 1 .wantHave 5000 false
    (mergeAll missing [found]).work = 5000 ∧ (mergeAll found [missing]).work = 5000 ∧
      (mergeAll found [missing]).data.isWantBlock = true := by
  intro w e missing found
  have hm : missing.WellFormed w 5000 := ⟨rfl, rfl, rfl⟩
  have hf : found.WellFormed w 5000 := e.wellFormed_foundTask ..
  have hall : ∀ x ∈ found :: [missing], x.WellFormed w 5000 := by
    intro x hx
    rcases List.mem_cons.mp hx with rfl | hx
    · exact hf
    · rw [List.mem_singleton.mp hx]
      exact hm
  obtain ⟨hwf, hb, hh, horder⟩ := mergeAll_join w 5000 found [missing] hall
  have hwork : (mergeAll found [missing]).work = 5000 := by
    rw [hwf.work, hb, hh]
    decide
  refine ⟨?_, hwork, hb⟩
  rw [(horder missing [found] fun x => List.Perm.mem_iff (.swap found missing [])).1, hwork]

/-! ## Tasks that are dropped -/

/-- The task answers the other: it is a want-block if the other is, and it has the block if
the other has. -/
def Subsumes (et task : Task) : Prop :=
  (task.data.isWantBlock = true → et.data.isWantBlock = true) ∧
    (task.data.haveBlock = true → et.data.haveBlock = true)

instance (et task : Task) : Decidable (Subsumes et task) :=
  inferInstanceAs (Decidable (_ ∧ _))

/-- The loop joins the flags of the existing tasks. -/
theorem hasNewInfo_eq_false {task : Task} {existing : List Task} :
    hasNewInfo task existing = false ↔
      (task.data.isWantBlock = true → ∃ et ∈ existing, et.data.isWantBlock = true) ∧
      (task.data.haveBlock = true → ∃ et ∈ existing, et.data.haveBlock = true) := by
  have hloop : ∀ (l : List Task) (s : Bool × Bool), l.foldl (fun (s : Bool × Bool) et =>
      (if et.data.haveBlock then true else s.1, if et.data.isWantBlock then true else s.2)) s =
      (s.1 || l.any (·.data.haveBlock), s.2 || l.any (·.data.isWantBlock)) := by
    intro l
    induction l with
    | nil => intro s; simp
    | cons et l ih =>
        intro s
        rw [List.foldl_cons, ih, List.any_cons, List.any_cons]
        cases et.data.haveBlock <;> cases et.data.isWantBlock <;> simp
  rw [hasNewInfo, hloop, ← List.any_eq_true, ← List.any_eq_true]
  dsimp only
  cases existing.any (·.data.haveBlock) <;> cases existing.any (·.data.isWantBlock) <;>
    cases task.data.haveBlock <;> cases task.data.isWantBlock <;> simp

/-- **A task that is dropped is answered by one of the active ones**, just when a want-block
that has the block meets no want-block and no block spread over two active tasks. -/
theorem dropped_subsumed_iff (task et₀ : Task) (ets : List Task) :
    (hasNewInfo task (et₀ :: ets) = false → ∃ et ∈ et₀ :: ets, Subsumes et task) ↔
      (task.data.isWantBlock = true → task.data.haveBlock = true →
        (∃ et ∈ et₀ :: ets, et.data.isWantBlock = true) →
        (∃ et ∈ et₀ :: ets, et.data.haveBlock = true) →
        ∃ et ∈ et₀ :: ets, et.data.isWantBlock = true ∧ et.data.haveBlock = true) := by
  rw [hasNewInfo_eq_false]
  unfold Subsumes
  cases task.data.isWantBlock with
  | false =>
      cases task.data.haveBlock with
      | false => simp
      | true => simp
  | true =>
      cases task.data.haveBlock with
      | false => simp
      | true => simp

/-- The peer is being told DONT_HAVE for its want-block when the block arrives, and then HAVE
for a want-have; the want-block that it repeats is dropped, and it is not sent the block. -/
theorem dropped_unanswered :
    let w : Want := ⟨⟨[1]⟩, [65]⟩
    let e := Engine.new ⟨.ofContent ∅, fun _ _ _ _ => true⟩
    let missing : Task := ⟨w, 1, blockPresenceSize w, ⟨0, false, true, true⟩⟩
    let present := e.foundTask w 1 .wantHave 5000 true
    let wanted := e.foundTask w 1 .wantBlock 5000 true
    hasNewInfo present [missing] = true ∧ hasNewInfo wanted [missing, present] = false ∧
      ¬ ∃ et ∈ [missing, present], Subsumes et wanted := by
  decide

/-! ## The flag SendDontHave -/

/-- The task, popped in any batch when its block cannot be read, is answered by a DONT_HAVE. -/
def ToldMissing (t : Task) : Prop :=
  ∀ (b : PoppedBatch) (bs : List PoppedBatch) (msg : Message), t ∈ b.pop.tasks →
    (b.pop.tasks.map Task.topic).Nodup → (∀ w blk, b.found w = .ok blk → blk.cid = w.cid) →
    batchMessage b.found b.pop = some msg → t.AsksBlock → (∃ err, b.found t.topic = .error err) →
    ∃ env, (nextEnvelope (b :: bs)).envelope = some env ∧
      env.message.blockPresences.lookup t.topic = some .DONT_HAVE

theorem toldMissing_of_sendDontHave {t : Task} (h : t.data.sendDontHave = true) :
    ToldMissing t := by
  intro b bs msg ht hnd hcid hmsg hask herr
  have hall := answersAll hcid hmsg hnd
  have hdont := (hall.sendsDontHave t ht).mpr (.inr ⟨hask, herr, h⟩)
  have hlen : msg.blockPresences.len ≠ 0 :=
    GoMap.len_ne_zero.mpr ⟨t.topic, GoMap.mem_of_lookup hdont⟩
  have hfull : msg.empty = false := by simp [Message.empty, hlen]
  have hsent := nextEnvelope_sends bs (List.ne_nil_of_mem ht) hmsg hfull
  exact ⟨⟨b.pop.peer, msg, b.pop.tasks⟩, congrArg Popped.envelope hsent, hdont⟩

/-- **A DONT_HAVE that was asked for is not forgotten by merging**, just when the task that was
pushed first asks for it or none does. -/
theorem dontHave_kept_iff (t : Task) (ts : List Task) :
    ((∃ x ∈ t :: ts, x.data.sendDontHave = true) →
        (mergeAll t ts).data.sendDontHave = true ∧ ToldMissing (mergeAll t ts)) ↔
      (t.data.sendDontHave = true ∨ ∀ x ∈ ts, x.data.sendDontHave = false) := by
  have hflag := sendDontHave_mergeAll t ts
  constructor
  · intro h
    refine or_iff_not_imp_left.mpr fun hno x hx => ?_
    by_contra hset
    have hx' : ∃ x ∈ t :: ts, x.data.sendDontHave = true :=
      ⟨x, List.mem_cons_of_mem t hx, by simpa using hset⟩
    exact hno (hflag.symm.trans (h hx').1)
  · rintro hfirst ⟨x, hx, hset⟩
    have ht : t.data.sendDontHave = true := by
      rcases hfirst with h | h
      · exact h
      · rcases List.mem_cons.mp hx with rfl | hx
        · exact hset
        · rw [h x hx] at hset
          cases hset
    exact ⟨hflag.trans ht, toldMissing_of_sendDontHave (hflag.trans ht)⟩

/-- A block arrives that the peer wants, and before the task for it is popped the peer asks
for the block with the flag.  If the block may not be read then, the peer is told nothing. -/
theorem dontHave_forgotten :
    let w : Want := ⟨⟨[1]⟩, [65]⟩
    let p : PeerID := ⟨[7]⟩
    let e := Engine.new ⟨.ofContent ∅, fun _ _ _ _ => false⟩
    let arrived := e.foundTask w 1 .wantBlock 2 false
    let asked := e.foundTask w 1 .wantBlock 2 true
    let t := mergeAll arrived [asked]
    let r := nextEnvelope [⟨⟨p, [t], 0, .complete .stored, .stored⟩, fun _ => .error .unauthorised⟩]
    asked.data.sendDontHave = true ∧ t.data.sendDontHave = false ∧ t.data.haveBlock = true ∧
      t.data.isWantBlock = true ∧ r.done = [(p, [t])] ∧ r.envelope.isNone = true := by
  decide

end TaskMerger

end BitswapAuth
