/-
# `BitswapAuth.Node.Life` — the life of one want in one session

What the rest of the node does to a single want of an open session, seen from
the books that have something on it: the calls of `GetBlocks` that ask for it,
the operations about it that wait for the run loop, the session's wants, the
interest manager and the sender.  A step of the node is one of a few steps here,
or none.

A call for a want goes from *fresh* (the want operation is not sent yet) through
the queue and the loop, and is *waiting* until its subscription has received the
block; then it is *served*.  The session must have been told of the block by
then: the want is *clear*, when nothing but operations already queued is between
it and being off all books.
-/
import Mathlib.Tactic.Common

namespace BitswapAuth

/-- An operation in the queue, as far as one want is concerned. -/
inductive Note where
  | want
  | receive
  | cancel
  deriving DecidableEq

/-- Every cancellation is followed by a want. -/
def Followed : List Note → Prop
  | [] => True
  | .cancel :: q => .want ∈ q ∧ Followed q
  | .want :: q | .receive :: q => Followed q

theorem Followed.tail : ∀ {n : Note} {q : List Note}, Followed (n :: q) → Followed q
  | .cancel, _, h => h.2
  | .want, _, h | .receive, _, h => h

theorem followed_append_want : ∀ q : List Note, Followed (q ++ [.want])
  | [] => trivial
  | .cancel :: q => ⟨by simp, followed_append_want q⟩
  | .want :: q | .receive :: q => followed_append_want q

theorem Followed.append_receive : ∀ {q : List Note}, Followed q → Followed (q ++ [.receive])
  | [], _ => trivial
  | .cancel :: _, h => ⟨List.mem_append_left _ h.1, h.2.append_receive⟩
  | .want :: q, h | .receive :: q, h => by
      have hq : Followed q := h
      exact hq.append_receive

/-- Where no want is coming, only blocks are announced. -/
theorem Followed.eq_receive : ∀ {q : List Note}, Followed q → .want ∉ q → ∀ n ∈ q, n = .receive
  | [], _, _ => by simp
  | .cancel :: q, h, hw => absurd (List.mem_cons_of_mem .cancel h.1) hw
  | .want :: q, _, hw => absurd List.mem_cons_self hw
  | .receive :: q, h, hw => by
      have hq : Followed q := h
      intro n hn
      rcases List.mem_cons.mp hn with rfl | hn
      · rfl
      · exact hq.eq_receive (fun hw' => hw (List.mem_cons_of_mem _ hw')) n hn

/-- Where a want of an open session stands. -/
@[ext]
structure Life where
  -- among the open calls, one has not sent its operation; one has not got the block
  fresh : Prop
  waiting : Prop
  -- the subscription of some call, open or closed, has got the block
  served : Prop
  queue : List Note
  -- the loop is about to pass it to the sender
  entering : Prop
  -- on the books of the session, and of the interest manager
  has : Prop
  flag : Prop
  known : Prop
  -- with the sender, once it is through its changes
  tracked : Prop

namespace Life

/-- The want operation is still to be taken. -/
def Coming (l : Life) : Prop := l.fresh ∨ .want ∈ l.queue

/-- The sender has not got the want yet. -/
def Entering (l : Life) : Prop := l.Coming ∨ l.entering

/-- Once the queue is through, the want is off all books. -/
structure Clear (l : Life) : Prop where
  entering : ¬ l.entering
  queue : .want ∉ l.queue
  has : l.has → .receive ∈ l.queue
  flag : l.flag → l.has ∧ l.queue.head? = some .receive
  tracked : ¬ l.tracked

/-- What happens to a want. -/
inductive Step (l : Life) : Life → Prop
  -- nothing, or the sender learns of the block
  | stay (t : Prop) (ht : t → l.tracked) : Step l { l with tracked := t }
  -- a call sends its operation
  | ask (f : Prop) (h : l.fresh) :
      Step l { l with fresh := f, queue := l.queue ++ [.want] }
  -- the block is published
  | publish (w s : Prop) (hw : w → l.waiting) (hs : s → l.served ∨ l.waiting)
      (h : l.waiting → l.Clear ∧ ¬ l.fresh) : Step l { l with waiting := w, served := s }
  -- the only call for it ends
  | giveUp (h : l.served → ¬ l.waiting) :
      Step l { l with fresh := False, waiting := False, queue := l.queue ++ [.cancel] }
  -- the loop takes an operation
  | takeWant (q : List Note) (hq : l.queue = .want :: q) (h : ¬ l.entering) :
      Step l { l with queue := q, entering := True, has := True, flag := True, known := True }
  | takeReceive (q : List Note) (hq : l.queue = .receive :: q) (h : ¬ l.entering) :
      Step l { l with queue := q, has := False, flag := l.flag ∧ ¬ l.has }
  | takeCancel (q : List Note) (b : Prop) (hq : l.queue = .cancel :: q) (hb : b → l.has)
      (h : ¬ l.entering) : Step l { l with queue := q, has := b }
  -- the loop passes the want to the sender
  | add (h : l.entering) : Step l { l with entering := False, tracked := True }
  -- the session is told of the block
  | tell : Step l { l with queue := l.queue ++ [.receive] }

theorem Step.refl (l : Life) : l.Step l := .stay l.tracked id

/-- What holds of a want at any time. -/
structure Inv (l : Life) : Prop where
  fresh : l.fresh → l.waiting
  known : l.waiting → l.Coming ∨ l.known
  flag : l.waiting → l.flag → l.Coming ∨ l.has
  entering : l.entering → l.has ∧ l.known
  cancel : l.waiting → l.fresh ∨ Followed l.queue
  served : l.served → l.Clear ∨ l.waiting

variable {l l' : Life}

/-- A want nobody asks for. -/
theorem inv_of_unasked (hf : ¬ l.fresh) (hw : ¬ l.waiting) (hs : ¬ l.served) (he : ¬ l.entering) :
    l.Inv :=
  ⟨fun h => absurd h hf, fun h => absurd h hw, fun h => absurd h hw, fun h => absurd h he,
    fun h => absurd h hw, fun h => absurd h hs⟩

theorem Inv.subscribe (hi : l.Inv) : ({ l with fresh := True, waiting := True } : Life).Inv where
  fresh _ := trivial
  known _ := .inl (.inl trivial)
  flag _ _ := .inl (.inl trivial)
  entering := hi.entering
  cancel _ := .inl trivial
  served _ := .inr trivial

/-! ## Clear wants stay clear -/

theorem Clear.untrack (h : l.Clear) {t : Prop} (ht : t → l.tracked) :
    ({ l with tracked := t } : Life).Clear :=
  { h with tracked := fun h' => h.tracked (ht h') }

theorem Clear.append (h : l.Clear) {n : Note} (hn : n ≠ .want) :
    ({ l with queue := l.queue ++ [n] } : Life).Clear where
  entering := h.entering
  queue hw := (List.mem_append.mp hw).elim h.queue fun hw => hn (List.mem_singleton.mp hw).symm
  has hh := List.mem_append_left _ (h.has hh)
  flag hf := by
    obtain ⟨hh, hq⟩ := h.flag hf
    refine ⟨hh, ?_⟩
    rw [List.head?_append, hq]
    rfl
  tracked := h.tracked

theorem Clear.takeReceive (h : l.Clear) {q : List Note} (hq : l.queue = .receive :: q) :
    ({ l with queue := q, has := False, flag := l.flag ∧ ¬ l.has } : Life).Clear where
  entering := h.entering
  queue hw := h.queue (hq ▸ List.mem_cons_of_mem _ hw)
  has := False.elim
  flag hf := absurd (h.flag hf.1).1 hf.2
  tracked := h.tracked

theorem Clear.takeCancel (h : l.Clear) {q : List Note} {b : Prop} (hq : l.queue = .cancel :: q)
    (hb : b → l.has) : ({ l with queue := q, has := b } : Life).Clear where
  entering := h.entering
  queue hw := h.queue (hq ▸ List.mem_cons_of_mem _ hw)
  has hh := by
    have hr := h.has (hb hh)
    rw [hq] at hr
    exact (List.mem_cons.mp hr).resolve_left (by simp)
  -- a flag would have an announcement at the head
  flag hf := by
    have hhead := (h.flag hf).2
    rw [hq] at hhead
    simp at hhead
  tracked := h.tracked

/-- A want that is waited for, and that the sender has got and dropped, is clear once
the session has been told of the block. -/
theorem Inv.clear (hi : l.Inv) (hw : l.waiting) (he : ¬ l.Entering) (ht : ¬ l.tracked)
    (hr : .receive ∈ l.queue) : l.Clear := by
  have hcoming : ¬ l.Coming := fun h => he (.inl h)
  have hnone : .want ∉ l.queue := fun h => hcoming (.inr h)
  have hall := ((hi.cancel hw).resolve_left fun h => hcoming (.inl h)).eq_receive hnone
  refine ⟨fun h => he (.inr h), hnone, fun _ => hr, fun hf => ⟨?_, ?_⟩, ht⟩
  · exact (hi.flag hw hf).resolve_left hcoming
  · cases hq : l.queue with
    | nil => exact absurd hr (by simp [hq])
    | cons n q => rw [hall n (hq ▸ List.mem_cons_self)]; rfl

/-! ## Steps -/

/-- **Every step keeps the invariant.** -/
theorem Inv.step (hi : l.Inv) (h : l.Step l') : l'.Inv := by
  cases h with
  | stay t ht =>
      exact { hi with served := fun hs => (hi.served hs).imp_left fun hc => hc.untrack ht }
  | ask f h =>
      have hcoming : Life.Coming { l with fresh := f, queue := l.queue ++ [.want] } :=
        .inr (by simp)
      exact {
        fresh := fun _ => hi.fresh h
        known := fun _ => .inl hcoming
        flag := fun _ _ => .inl hcoming
        entering := hi.entering
        cancel := fun _ => .inr (followed_append_want l.queue)
        served := fun _ => .inr (hi.fresh h) }
  | publish w s hw hs h =>
      -- a fresh call would be a waiting one
      have hfresh : ¬ l.fresh := fun hf => (h (hi.fresh hf)).2 hf
      have hclear : l.served ∨ l.waiting → l.Clear := fun hs =>
        (hs.elim hi.served .inr).elim id fun hw => (h hw).1
      exact {
        fresh := fun hf => absurd hf hfresh
        known := fun h => hi.known (hw h)
        flag := fun h => hi.flag (hw h)
        entering := hi.entering
        cancel := fun h => hi.cancel (hw h)
        served := fun h => by
          have hc := hclear (hs h)
          exact .inl ⟨hc.entering, hc.queue, hc.has, hc.flag, hc.tracked⟩ }
  | giveUp h =>
      refine ⟨False.elim, False.elim, False.elim, hi.entering, False.elim, fun hs => .inl ?_⟩
      have hc := ((hi.served hs).resolve_right (h hs)).append (n := .cancel) (by simp)
      exact ⟨hc.entering, hc.queue, hc.has, hc.flag, hc.tracked⟩
  | takeWant q hq h =>
      exact {
        fresh := hi.fresh
        known := fun _ => .inr trivial
        flag := fun _ _ => .inr trivial
        entering := fun _ => ⟨trivial, trivial⟩
        cancel := fun hw => (hi.cancel hw).imp_right fun hfo => (hq ▸ hfo).tail
        served := fun hs => .inr ((hi.served hs).resolve_left fun hc =>
          hc.queue (hq ▸ List.mem_cons_self)) }
  | takeReceive q hq h =>
      have hcoming : l.Coming → Life.Coming { l with
          queue := q, has := False, flag := l.flag ∧ ¬ l.has } := by
        refine Or.imp_right fun hw => ?_
        rw [hq] at hw
        exact (List.mem_cons.mp hw).resolve_left (by simp)
      exact {
        fresh := hi.fresh
        known := fun hw => (hi.known hw).imp_left hcoming
        flag := fun hw hf => .inl (hcoming ((hi.flag hw hf.1).resolve_right hf.2))
        entering := fun he => absurd he h
        cancel := fun hw => (hi.cancel hw).imp_right fun hfo => (hq ▸ hfo).tail
        served := fun hs => (hi.served hs).imp_left fun hc => hc.takeReceive hq }
  | takeCancel q b hq hb h =>
      have hcoming : l.Coming → Life.Coming { l with queue := q, has := b } := by
        refine Or.imp_right fun hw => ?_
        rw [hq] at hw
        exact (List.mem_cons.mp hw).resolve_left (by simp)
      exact {
        fresh := hi.fresh
        known := fun hw => (hi.known hw).imp_left hcoming
        -- after the cancellation comes a want
        flag := fun hw _ => .inl ((hi.cancel hw).imp_right fun hfo => by
          rw [hq] at hfo
          exact hfo.1)
        entering := fun he => absurd he h
        cancel := fun hw => (hi.cancel hw).imp_right fun hfo => (hq ▸ hfo).tail
        served := fun hs => (hi.served hs).imp_left fun hc => hc.takeCancel hq hb }
  | add h =>
      exact {
        fresh := hi.fresh
        known := hi.known
        flag := hi.flag
        entering := False.elim
        cancel := hi.cancel
        served := fun hs => .inr ((hi.served hs).resolve_left fun hc => hc.entering h) }
  | tell =>
      have hcoming : l.Coming → Life.Coming { l with queue := l.queue ++ [.receive] } :=
        Or.imp_right (List.mem_append_left _)
      exact {
        fresh := hi.fresh
        known := fun hw => (hi.known hw).imp_left hcoming
        flag := fun hw hf => (hi.flag hw hf).imp_left hcoming
        entering := hi.entering
        cancel := fun hw => (hi.cancel hw).imp_right Followed.append_receive
        served := fun hs => (hi.served hs).imp_left fun hc => hc.append (by simp) }

/-- Only a call that begins starts to wait. -/
theorem Step.waiting (h : l.Step l') (hw : l'.waiting) : l.waiting := by
  cases h with
  | publish w s hw' hs h => exact hw' hw
  | giveUp h => exact hw.elim
  | stay | ask | takeWant | takeReceive | takeCancel | add | tell => exact hw

/-- What a step leaves of a want that is waited for and that the sender has got. -/
structure Calm (l l' : Life) : Prop where
  entering : ¬ l'.Entering
  tracked : l'.tracked → l.tracked
  clear : l.Clear → l'.Clear

/-- While a call waits and nothing is coming, nothing goes back on the books. -/
theorem Step.calm (h : l.Step l') (hw : l'.waiting) (he : ¬ l.Entering) : l.Calm l' := by
  have hq : ∀ {n : Note} {q : List Note}, l.queue = n :: q → .want ∉ q := fun hq hw =>
    he (.inl (.inr (hq ▸ List.mem_cons_of_mem _ hw)))
  have hfresh : ¬ l.fresh := fun h => he (.inl (.inl h))
  have hent : ¬ l.entering := fun h => he (.inr h)
  cases h with
  | stay t ht => exact ⟨he, ht, fun hc => hc.untrack ht⟩
  | ask f h => exact absurd h hfresh
  | publish w s hw' hs h =>
      exact ⟨he, id, fun hc => ⟨hc.entering, hc.queue, hc.has, hc.flag, hc.tracked⟩⟩
  | giveUp h => exact hw.elim
  | takeWant q hq' h => exact absurd (.inl (.inr (hq' ▸ List.mem_cons_self))) he
  | takeReceive q hq' h =>
      exact ⟨fun he' => he'.elim (Or.rec hfresh (hq hq')) hent, id,
        fun hc => hc.takeReceive hq'⟩
  | takeCancel q b hq' hb h =>
      exact ⟨fun he' => he'.elim (Or.rec hfresh (hq hq')) hent, id,
        fun hc => hc.takeCancel hq' hb⟩
  | add h => exact absurd h hent
  | tell =>
      refine ⟨fun he' => he'.elim (Or.rec hfresh fun hw => ?_) hent, id,
        fun hc => hc.append (by simp)⟩
      exact (List.mem_append.mp hw).elim (fun hw => he (.inl (.inr hw))) (by simp)

end Life

end BitswapAuth
