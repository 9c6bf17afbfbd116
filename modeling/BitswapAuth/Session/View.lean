/-
# `BitswapAuth.Session.View` — what one batch of changes does to one want

The want sender in abstract terms.  Of each want it has a *view*: a presence
for each peer it knows of, the peer it waits for, and whether it has given the
want up.  The best peer is left out; it is drawn at random from the presences
and looked at only when wants are sent.

Up to that point a batch does four things to a view: peers are looked up in the
block presence manager, peers are forgotten, the peer waited for is no longer
waited for, and a HAVE that is found means the want is not given up.  `Became`
says this with three sets of peers.  The passes of `onChange` are shown to be of
this form one by one, whatever the order of their loops.
-/
import BitswapAuth.Session.WantSender
import BitswapAuth.Lib.Run
import Mathlib.Logic.Function.Basic

namespace BitswapAuth

open Lib

/-! ## Views -/

/-- What the sender knows of a want, the best peer apart. -/
@[ext]
structure View where
  presence : PeerID → Option BlockPresence
  sentTo : PeerID
  exhausted : Bool

namespace View

/-- The peer is looked up, and found with this presence. -/
def see (v : View) (p : PeerID) (b : BlockPresence) : View :=
  ⟨Function.update v.presence p (some b), v.sentTo, if b = .BPHave then false else v.exhausted⟩

/-- The peer is forgotten, and not waited for. -/
def drop (v : View) (p : PeerID) : View :=
  ⟨Function.update v.presence p none, if p = v.sentTo then .empty else v.sentTo, v.exhausted⟩

/-- The peer is not waited for. -/
def unsend (v : View) (p : PeerID) : View :=
  { v with sentTo := if p = v.sentTo then .empty else v.sentTo }

/-- The want is given up. -/
def exhaust (v : View) : View := { v with exhausted := true }

/-- The view of a new want: the session's peers are looked up. -/
def fresh (bpm : BlockPresenceManager) (c : Cid) (peers : GoSet PeerID) : View :=
  ⟨fun q => if q ∈ peers then some (bpm.presenceOf q c) else none, .empty, false⟩

theorem see_see (v : View) (p : PeerID) (b : BlockPresence) : (v.see p b).see p b = v.see p b := by
  unfold see
  simp only [Function.update_idem, mk.injEq, true_and]
  split <;> rfl

theorem drop_drop (v : View) (p : PeerID) : (v.drop p).drop p = v.drop p := by
  unfold drop
  simp only [Function.update_idem, mk.injEq, and_true, true_and]
  split <;> simp_all

/-- The view `v` became `v'`: the peers of `S` were seen, those of `G` are gone,
and those of `U` are not waited for. -/
structure Became (bpm : BlockPresenceManager) (c : Cid) (S G U : PeerID → Prop)
    (v v' : View) : Prop where
  seen : ∀ q, S q → v'.presence q = some (bpm.presenceOf q c)
  gone : ∀ q, G q → ¬ S q → v'.presence q = none
  same : ∀ q, ¬ G q → ¬ S q → v'.presence q = v.presence q
  unsent : U v.sentTo → v'.sentTo = .empty
  waits : ¬ U v.sentTo → v'.sentTo = v.sentTo
  exhausted : v'.exhausted = true ↔ v.exhausted = true ∧ ∀ q, S q → bpm.presenceOf q c ≠ .BPHave

namespace Became

variable {bpm : BlockPresenceManager} {c : Cid} {S G U S' G' U' : PeerID → Prop} {v v' v'' : View}

theorem refl (v : View) : Became bpm c (fun _ => False) (fun _ => False) (fun _ => False) v v :=
  ⟨fun _ h => h.elim, fun _ h => h.elim, fun _ _ _ => rfl, fun h => h.elim, fun _ => rfl,
    by simp⟩

theorem see (v : View) (p : PeerID) :
    Became bpm c (· = p) (fun _ => False) (fun _ => False) v (v.see p (bpm.presenceOf p c)) where
  seen q h := by subst h; simp [View.see]
  gone _ h := h.elim
  same q _ h := by simp [View.see, h]
  unsent h := h.elim
  waits _ := rfl
  exhausted := by
    simp only [View.see]
    split
    · rename_i h; simp [h]
    · rename_i h; simp [h]

theorem drop (v : View) (p : PeerID) :
    Became bpm c (fun _ => False) (· = p) (· = p) v (v.drop p) where
  seen _ h := h.elim
  gone q h _ := by subst h; simp [View.drop]
  same q h _ := by simp [View.drop, h]
  unsent h := by simp [View.drop, h]
  waits h := by simp [View.drop, Ne.symm h]
  exhausted := by simp [View.drop]

theorem unsend (v : View) (p : PeerID) :
    Became bpm c (fun _ => False) (fun _ => False) (· = p) v (v.unsend p) where
  seen _ h := h.elim
  gone _ h := h.elim
  same _ _ _ := rfl
  unsent h := by simp [View.unsend, h]
  waits h := by simp [View.unsend, Ne.symm h]
  exhausted := by simp [View.unsend]

/-- One after the other, provided no peer is forgotten after it was looked up. -/
theorem trans (h : Became bpm c S G U v v') (h' : Became bpm c S' G' U' v' v'')
    (hS : ∀ q, S q → ¬ G' q) :
    Became bpm c (fun q => S q ∨ S' q) (fun q => G q ∨ G' q) (fun q => U q ∨ U' q) v v'' where
  seen q hq := by
    by_cases hs : S' q
    · exact h'.seen q hs
    · have hq := hq.resolve_right hs
      rw [h'.same q (hS q hq) hs, h.seen q hq]
  gone q hg hq := by
    obtain ⟨hs, hs'⟩ := not_or.mp hq
    by_cases hg' : G' q
    · exact h'.gone q hg' hs'
    · rw [h'.same q hg' hs', h.gone q (hg.resolve_right hg') hs]
  same q hg hq := by
    obtain ⟨hs, hs'⟩ := not_or.mp hq
    obtain ⟨hg, hg'⟩ := not_or.mp hg
    rw [h'.same q hg' hs', h.same q hg hs]
  unsent hu := by
    by_cases hu1 : U v.sentTo
    · have h1 := h.unsent hu1
      by_cases hu2 : U' v'.sentTo
      · exact h'.unsent hu2
      · rw [h'.waits hu2, h1]
    · rw [← h.waits hu1] at hu hu1
      exact h'.unsent (hu.resolve_left hu1)
  waits hu := by
    obtain ⟨hu1, hu2⟩ := not_or.mp hu
    rw [← h.waits hu1] at hu2
    rw [h'.waits hu2, h.waits hu1]
  exhausted := by
    rw [h'.exhausted, h.exhausted, and_assoc]
    refine and_congr_right fun _ => ⟨?_, ?_⟩
    · rintro ⟨h1, h2⟩ q (hq | hq)
      · exact h1 q hq
      · exact h2 q hq
    · intro hall
      exact ⟨fun q hq => hall q (.inl hq), fun q hq => hall q (.inr hq)⟩

/-- The sets matter only by their members. -/
theorem congr (h : Became bpm c S G U v v') (hS : ∀ q, S q ↔ S' q) (hG : ∀ q, G q ↔ G' q)
    (hU : ∀ q, U q ↔ U' q) : Became bpm c S' G' U' v v' := by
  obtain rfl : S = S' := funext fun q => propext (hS q)
  obtain rfl : G = G' := funext fun q => propext (hG q)
  obtain rfl : U = U' := funext fun q => propext (hU q)
  exact h

end Became

end View

/-- The view of a want. -/
def WantInfo.view (wi : WantInfo) : View := ⟨wi.blockPresence.lookup, wi.sentTo, wi.exhausted⟩

namespace SessionWantSender

/-- The view of a want, if it is tracked. -/
def view (sws : SessionWantSender) (w : Want) : Option View :=
  (sws.wants.lookup w).map WantInfo.view

theorem view_eq_none {sws : SessionWantSender} {w : Want} : sws.view w = none ↔ w ∉ sws.wants := by
  rw [view]
  rw [Option.map_eq_none_iff, AList.lookup_eq_none]

theorem view_eq_some {sws : SessionWantSender} {w : Want} {v : View} :
    sws.view w = some v ↔ ∃ wi, sws.wants.lookup w = some wi ∧ wi.view = v := by
  rw [view]
  rw [Option.map_eq_some_iff]

theorem rel_trans {r r' r'' : View → View → Prop} {x y z : Option View} (h : Option.Rel r x y)
    (h' : Option.Rel r' y z) (htrans : ∀ v v' v'', r v v' → r' v' v'' → r'' v v'') :
    Option.Rel r'' x z := by
  cases h with
  | none => cases h' with | none => exact .none
  | some h => cases h' with | some h' => exact .some (htrans _ _ _ h h')

theorem rel_some_right {r : View → View → Prop} {x : Option View} {v' : View}
    (h : Option.Rel r x (some v')) : ∃ v, x = some v ∧ r v v' := by
  cases h with
  | some h => exact ⟨_, rfl, h⟩

theorem rel_some_left {r : View → View → Prop} {v : View} {y : Option View}
    (h : Option.Rel r (some v) y) : ∃ v', y = some v' ∧ r v v' := by
  cases h with
  | some h => exact ⟨_, rfl, h⟩

theorem rel_none_iff {r : View → View → Prop} {x y : Option View} (h : Option.Rel r x y) :
    y = none ↔ x = none := by
  cases h with
  | none => exact Iff.rfl
  | some _ => simp

theorem rel_refl {r : View → View → Prop} (h : ∀ v, r v v) (x : Option View) :
    Option.Rel r x x := by
  cases x with
  | none => exact .none
  | some v => exact .some (h v)

/-- The peers of the session and the record of sent want-blocks are as they were. -/
structure Frame (sws sws' : SessionWantSender) : Prop where
  peers : sws'.spm.peers = sws.spm.peers
  swbt : sws'.swbt = sws.swbt
  session : sws'.sessionID = sws.sessionID

theorem Frame.refl (sws : SessionWantSender) : Frame sws sws := ⟨rfl, rfl, rfl⟩

theorem Frame.trans {a b c : SessionWantSender} (h : Frame a b) (h' : Frame b c) : Frame a c :=
  ⟨h'.peers.trans h.peers, h'.swbt.trans h.swbt, h'.session.trans h.session⟩

theorem Frame.of_aside {sws sws' : SessionWantSender} (h : sws'.aside = sws.aside) :
    Frame sws sws' where
  peers := congrArg (fun a => a.spm.peers) h
  swbt := congrArg Aside.swbt h
  session := congrArg Aside.sessionID h

theorem Frame.foldl {α : Type} {f : SessionWantSender → α → SessionWantSender}
    (hf : ∀ sws a, Frame sws (f sws a)) :
    ∀ (l : List α) (sws : SessionWantSender), Frame sws (l.foldl f sws)
  | [], sws => .refl sws
  | a :: l, sws => (hf sws a).trans (Frame.foldl hf l (f sws a))

end SessionWantSender

end BitswapAuth
