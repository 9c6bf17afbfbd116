/-
# `BitswapAuth.PeerManager.Told` — what a peer has been told is what is recorded

A queue is taken here as the list of the calls made on it since it was created.
Its net effect, `told`, says for each want whether the peer holds it as a
want-block, as a want-have, or not at all.

The record of the want manager determines it (`told_eq_recorded`).  And each
call fits what was told before it (`Fits`): a want-have only for a want the peer
does not hold, a want-block only for one it does not hold as a want-block, a
cancel only for one it holds.  Read along one want, this is `Disciplined`: from
one cancel to the next a want is given at most once in each form, and never as
a want-have after a want-block.
-/
import BitswapAuth.PeerManager.Manager
import BitswapAuth.PeerManager.Record
import BitswapAuth.Wantlist
import BitswapAuth.Lib.Run
import Mathlib.Data.List.Induction

namespace BitswapAuth

open Lib PeerWantManager

/-! ## The effect of calls -/

/-- For each want, the form in which a peer holds it. -/
abbrev Told := Want → Option WantType

namespace QueueCall

/-- The effect of one call. -/
def apply (t : Told) : QueueCall → Told
  | .addBroadcastWantHaves ws, w => if w ∈ ws then some ((t w).getD .wantHave) else t w
  | .addWants bs hs, w =>
      if w ∈ bs then some .wantBlock
      else if w ∈ hs then some ((t w).getD .wantHave)
      else t w
  | .addCancels ks, w => if w ∈ ks then none else t w

/-- The call repeats nothing: it gives and cancels just what there is to give
and to cancel, each want once. -/
def Fits (t : Told) : QueueCall → Prop
  | .addBroadcastWantHaves ws => ws.Nodup ∧ ∀ w ∈ ws, t w = none
  | .addWants bs hs => (bs.Nodup ∧ ∀ w ∈ bs, t w ≠ some .wantBlock) ∧
      (hs.Nodup ∧ ∀ w ∈ hs, t w = none) ∧ ∀ w ∈ bs, w ∉ hs
  | .addCancels ks => ∀ w ∈ ks, t w ≠ none

end QueueCall

/-- The net effect of the calls made on a queue. -/
def told (calls : List QueueCall) : Told := calls.foldl QueueCall.apply fun _ => none

/-- Every call fits what was told before it. -/
def Fitting (calls : List QueueCall) : Prop :=
  ∀ before c after, calls = before ++ c :: after → c.Fits (told before)

theorem told_append_singleton (calls : List QueueCall) (c : QueueCall) :
    told (calls ++ [c]) = c.apply (told calls) := by
  simp [told]

theorem fitting_nil : Fitting [] := by
  intro before c after h
  simp at h

theorem fitting_append_singleton {calls : List QueueCall} {c : QueueCall} :
    Fitting (calls ++ [c]) ↔ Fitting calls ∧ c.Fits (told calls) := by
  constructor
  · refine fun h => ⟨fun before d after hd => ?_, h calls c [] rfl⟩
    exact h before d (after ++ [c]) (by simp [hd])
  · rintro ⟨h, hc⟩ before d after hd
    rcases List.eq_nil_or_concat after with rfl | ⟨after', e, rfl⟩
    · obtain ⟨rfl, hcd⟩ := List.append_inj' hd rfl
      obtain rfl : c = d := by simpa using hcd
      exact hc
    · rw [List.concat_eq_append, ← List.cons_append, ← List.append_assoc] at hd
      obtain ⟨hcalls, -⟩ := List.append_inj' hd rfl
      exact h before d after' hcalls

/-! ## One want along the calls -/

/-- The ways a queue is given a want. -/
inductive Given where
  | wantBlock
  | wantHave
  | cancel
  deriving DecidableEq

/-- What one call gives of a want. -/
def QueueCall.given (w : Want) : QueueCall → List Given
  | .addBroadcastWantHaves ws => List.replicate (ws.count w) .wantHave
  | .addWants bs hs =>
      List.replicate (hs.count w) .wantHave ++ List.replicate (bs.count w) .wantBlock
  | .addCancels ks => List.replicate (ks.count w) .cancel

/-- What the calls give of a want, in order. -/
def given (w : Want) (calls : List QueueCall) : List Given := calls.flatMap (·.given w)

/-- Between two cancels the want is given as a want-block at most once, as a
want-have at most once, and never as a want-have after a want-block. -/
def Disciplined (gs : List Given) : Prop :=
  ∀ seg, seg <:+: gs → .cancel ∉ seg →
    seg.count .wantBlock ≤ 1 ∧ seg.count .wantHave ≤ 1 ∧ ¬ [.wantBlock, .wantHave].Sublist seg

/-- The form in which the want is held after it was given once more. -/
def Given.next : Option WantType → Given → Option WantType
  | _, .wantBlock => some .wantBlock
  | t, .wantHave => some (t.getD .wantHave)
  | _, .cancel => none

/-- Each time the want is given, it is not held in that form or a stronger one. -/
def Orderly : Option WantType → List Given → Prop
  | _, [] => True
  | t, .wantBlock :: gs => t ≠ some .wantBlock ∧ Orderly (some .wantBlock) gs
  | t, .wantHave :: gs => t = none ∧ Orderly (some .wantHave) gs
  | _, .cancel :: gs => Orderly none gs

theorem orderly_append : ∀ (xs : List Given) {ys : List Given} {t : Option WantType},
    Orderly t (xs ++ ys) ↔ Orderly t xs ∧ Orderly (xs.foldl Given.next t) ys
  | [], ys, t => by simp [Orderly]
  | .wantBlock :: xs, ys, t => by
      simp only [List.cons_append, Orderly, orderly_append xs, List.foldl_cons, Given.next,
        and_assoc]
  | .wantHave :: xs, ys, t => by
      simp only [List.cons_append, Orderly, orderly_append xs, List.foldl_cons, Given.next,
        and_assoc]
      constructor
      · rintro ⟨rfl, h⟩; exact ⟨rfl, h⟩
      · rintro ⟨rfl, h⟩; exact ⟨rfl, h⟩
  | .cancel :: xs, ys, t => by
      simp only [List.cons_append, Orderly, orderly_append xs, List.foldl_cons, Given.next]

/-- Without a cancel there are four orderly ways. -/
theorem orderly_segment : ∀ {seg : List Given} {t : Option WantType}, Orderly t seg →
    .cancel ∉ seg →
      seg = [] ∨ seg = [.wantBlock] ∨ seg = [.wantHave] ∨ seg = [.wantHave, .wantBlock]
  | [], _, _, _ => .inl rfl
  | [.wantBlock], _, _, _ => .inr (.inl rfl)
  | [.wantHave], _, _, _ => .inr (.inr (.inl rfl))
  | .cancel :: _, _, _, hc => absurd List.mem_cons_self hc
  | .wantBlock :: .wantBlock :: _, _, h, _ => absurd rfl h.2.1
  | .wantBlock :: .wantHave :: _, _, h, _ => absurd h.2.1 (by simp)
  | .wantBlock :: .cancel :: _, _, _, hc => absurd (by simp) hc
  | .wantHave :: .wantHave :: _, _, h, _ => absurd h.2.1 (by simp)
  | .wantHave :: .cancel :: _, _, _, hc => absurd (by simp) hc
  | [.wantHave, .wantBlock], _, _, _ => .inr (.inr (.inr rfl))
  | .wantHave :: .wantBlock :: .wantBlock :: _, _, h, _ => absurd rfl h.2.2.1
  | .wantHave :: .wantBlock :: .wantHave :: _, _, h, _ => absurd h.2.2.1 (by simp)
  | .wantHave :: .wantBlock :: .cancel :: _, _, _, hc => absurd (by simp) hc

theorem Orderly.disciplined {gs : List Given} {t : Option WantType} (h : Orderly t gs) :
    Disciplined gs := by
  rintro seg ⟨before, after, rfl⟩ hc
  rw [List.append_assoc, orderly_append, orderly_append] at h
  rcases orderly_segment h.2.1 hc with rfl | rfl | rfl | rfl <;> decide

/-- A call that fits gives each want in order. -/
theorem QueueCall.Fits.orderly {t : Told} {c : QueueCall} (h : c.Fits t) (w : Want) :
    Orderly (t w) (c.given w) ∧ (c.given w).foldl Given.next (t w) = c.apply t w := by
  cases c with
  | addBroadcastWantHaves ws =>
      obtain ⟨hnd, hnone⟩ := h
      simp only [given, apply, hnd.count]
      split
      · rename_i hw; simp [Orderly, Given.next, hnone w hw]
      · simp [Orderly]
  | addWants bs hs =>
      obtain ⟨⟨hnb, hb⟩, ⟨hnh, hh⟩, hdis⟩ := h
      simp only [given, apply, hnb.count, hnh.count]
      by_cases hwb : w ∈ bs
      · simp [hwb, hdis w hwb, Orderly, Given.next, hb w hwb]
      · by_cases hwh : w ∈ hs
        · simp [hwb, hwh, Orderly, Given.next, hh w hwh]
        · simp [hwb, hwh, Orderly]
  | addCancels ks =>
      have hrep : ∀ n (s : Option WantType), Orderly s (List.replicate n .cancel) ∧
          (List.replicate n Given.cancel).foldl Given.next s = if n = 0 then s else none := by
        intro n
        induction n with
        | zero => intro s; simp [Orderly]
        | succ n ih =>
            intro s
            obtain ⟨h₁, h₂⟩ := ih none
            refine ⟨by simpa [List.replicate_succ, Orderly] using h₁, ?_⟩
            rw [List.replicate_succ, List.foldl_cons]
            simp [Given.next, h₂]
      obtain ⟨h₁, h₂⟩ := hrep (ks.count w) (t w)
      refine ⟨h₁, h₂.trans ?_⟩
      by_cases hw : w ∈ ks <;> simp [apply, List.count_eq_zero, hw]

theorem Fitting.orderly : ∀ {calls : List QueueCall}, Fitting calls → ∀ w,
    Orderly none (given w calls) ∧ (given w calls).foldl Given.next none = told calls w := by
  intro calls
  induction calls using List.reverseRecOn with
  | nil => intro _ w; simp [given, Orderly, told]
  | append_singleton calls c ih =>
      intro h w
      obtain ⟨hcalls, hc⟩ := fitting_append_singleton.mp h
      obtain ⟨h₁, h₂⟩ := ih hcalls w
      obtain ⟨h₃, h₄⟩ := hc.orderly w
      have hgiven : given w (calls ++ [c]) = given w calls ++ c.given w := by simp [given]
      rw [hgiven, orderly_append, List.foldl_append, h₂, told_append_singleton]
      exact ⟨⟨h₁, h₃⟩, h₄⟩

/-! ## Calls and record -/

/-- What the record says of a want for a peer. -/
def PeerWant.recorded (pws : PeerWant) (bcst : GoSet Want) : Told := fun w =>
  if w ∈ pws.wantBlocks then some .wantBlock
  else if pws.has w ∨ w ∈ bcst then some .wantHave
  else none

/-- One operation's calls on a peer's queue: none and no change, or one that fits
and brings about the change. -/
def OneCall (t : Told) (cs : List QueueCall) (t' : Told) : Prop :=
  (cs = [] ∧ t = t') ∨ ∃ c, cs = [c] ∧ c.Fits t ∧ c.apply t = t'

theorem OneCall.fitting {t t' : Told} {cs log : List QueueCall} (h : OneCall t cs t')
    (hfit : Fitting log) (ht : told log = t) :
    Fitting (log ++ cs) ∧ told (log ++ cs) = t' := by
  rcases h with ⟨rfl, rfl⟩ | ⟨c, rfl, hc, rfl⟩
  · rw [List.append_nil]
    exact ⟨hfit, ht⟩
  · rw [fitting_append_singleton, told_append_singleton, ht]
    exact ⟨⟨hfit, hc⟩, rfl⟩

/-- An operation of the want manager that keeps every peer and gives each queue
what it changes in the peer's record. -/
structure Accounts (pwm : PeerWantManager) (r : PeerWantManager × Calls) : Prop where
  absent : ∀ q, pwm.peerWants.lookup q = none → r.1.peerWants.lookup q = none
  peer : ∀ q pws, pwm.peerWants.lookup q = some pws → ∃ pws', r.1.peerWants.lookup q = some pws' ∧
    OneCall (pws.recorded pwm.broadcastWants) (callsTo r.2 q) (pws'.recorded r.1.broadcastWants)

namespace PeerWantManager

/-- A peer that is new is told the broadcast wants. -/
theorem addPeer_spec {pwm : PeerWantManager} {p : PeerID} (o : RangeOrder)
    (hp : pwm.peerWants.lookup p = none) :
    (∀ q, (pwm.addPeer p o).1.peerWants.lookup q =
      if q = p then some .new else pwm.peerWants.lookup q) ∧
    (pwm.addPeer p o).1.broadcastWants = pwm.broadcastWants ∧
    OneCall (fun _ => none) (callsTo (pwm.addPeer p o).2 p)
      (PeerWant.new.recorded (pwm.addPeer p o).1.broadcastWants) ∧
    ∀ q, q ≠ p → callsTo (pwm.addPeer p o).2 q = [] := by
  rw [addPeer]
  rw [if_neg (AList.lookup_eq_none.mp hp)]
  dsimp only
  refine ⟨fun q => GoMap.lookup_insert_ite, rfl, ?_, fun q hq => ?_⟩
  · have hrec : ∀ w, PeerWant.new.recorded pwm.broadcastWants w =
        if w ∈ pwm.broadcastWants then some .wantHave else none := by
      intro w
      simp [PeerWant.recorded, PeerWant.new, PeerWant.has]
    split
    · refine .inr ⟨.addBroadcastWantHaves (o.range pwm.broadcastWants.keys), by simp [callsTo],
        ⟨RangeOrder.nodup_range.mpr pwm.broadcastWants.keys_nodup, fun _ _ => rfl⟩,
        funext fun w => ?_⟩
      have hmem : w ∈ o.range pwm.broadcastWants.keys ↔ w ∈ pwm.broadcastWants :=
        RangeOrder.mem_range.trans AList.mem_keys
      rw [hrec, QueueCall.apply]
      by_cases hw : w ∈ pwm.broadcastWants
      · rw [if_pos hw, if_pos (hmem.mpr hw)]; rfl
      · rw [if_neg hw, if_neg (mt hmem.mp hw)]
    · rename_i hlen
      refine .inl ⟨rfl, funext fun w => ?_⟩
      rw [hrec, if_neg (GoMap.len_eq_zero.mp (Nat.eq_zero_of_not_pos hlen) w)]
  · split <;> simp [callsTo, Ne.symm hq]

theorem callsTo_filterMap {α : Type} {p : PeerID} {a : α}
    {g : PeerID × α → Option (PeerID × QueueCall)}
    (hg : ∀ e c, g e = some c → c.1 = e.1) : ∀ {l : List (PeerID × α)}, (l.map Prod.fst).Nodup →
    (p, a) ∈ l → callsTo (l.filterMap g) p = ((g (p, a)).map Prod.snd).toList
  | e :: l, hnd, hmem => by
      obtain ⟨he, hnd⟩ := List.nodup_cons.mp hnd
      -- the calls of entries for other peers are not the peer's
      have hnone : ∀ l' : List (PeerID × α), p ∉ l'.map Prod.fst →
          callsTo (l'.filterMap g) p = [] := by
        intro l' hl'
        rw [callsTo, List.filterMap_eq_nil_iff]
        intro c hc
        obtain ⟨e', he', hge⟩ := List.mem_filterMap.mp hc
        have hce := hg e' c hge
        rw [if_neg]
        rintro rfl
        exact hl' (hce ▸ List.mem_map_of_mem he')
      rw [show e :: l = [e] ++ l from rfl, List.filterMap_append, callsTo_append]
      rcases List.mem_cons.mp hmem with rfl | hmem
      · rw [hnone l he, List.append_nil]
        cases hgp : g (p, a) with
        | none => simp [hgp, callsTo]
        | some c =>
            have := hg _ c hgp
            simp [hgp, callsTo, this]
      · have hep : e.1 ≠ p := fun h => he (h ▸ List.mem_map_of_mem (f := Prod.fst) hmem)
        rw [hnone [e] (by simpa using Ne.symm hep), List.nil_append]
        exact callsTo_filterMap hg hnd hmem

theorem accounts_broadcastWantHaves (pwm : PeerWantManager) (ws : List Want) (o : RangeOrder) :
    Accounts pwm (pwm.broadcastWantHaves ws o) := by
  have hs := foldl_recordBroadcast_spec ws (pwm, [])
  rw [broadcastWantHaves]
  dsimp only
  set s := ws.foldl recordBroadcast (pwm, [])
  rw [hs.peerWants]
  refine ⟨fun q hq => by rw [hs.peerWants]; exact hq,
    fun q pws hq => ⟨pws, by rw [hs.peerWants]; exact hq, ?_⟩⟩
  have hkeys : ((o.range pwm.peerWants.pairs).map Prod.fst).Nodup := by
    rw [((o.range_perm _).map Prod.fst).nodup_iff, GoMap.map_fst_pairs]
    exact pwm.peerWants.keys_nodup
  have hmem : (q, pws) ∈ o.range pwm.peerWants.pairs :=
    RangeOrder.mem_range.mpr (GoMap.mem_pairs.mpr hq)
  rw [callsTo_filterMap (fun e c h => ?_) hkeys hmem]
  · have hunsent : ∀ w, w ∈ peerUnsent s.2 pws ↔
        (w ∈ ws ∧ w ∉ pwm.broadcastWants) ∧ pws.has w = false := by
      intro w
      rw [peerUnsent, List.mem_filter, hs.unsent, List.nil_append, GoSet.mem_fresh]
      simp
    have hrec : ∀ w, pws.recorded s.1.broadcastWants w =
        if w ∈ peerUnsent s.2 pws then some .wantHave else pws.recorded pwm.broadcastWants w := by
      intro w
      simp only [PeerWant.recorded, hs.broadcastWants, hunsent]
      have hhas := @PeerWant.has_eq_true pws w
      by_cases hb : w ∈ pws.wantBlocks
      · have := hhas.mpr (.inl hb)
        simp [hb, this]
      · by_cases hh : pws.has w = true
        · simp [hb, hh]
        · by_cases hc : w ∈ pwm.broadcastWants <;> by_cases hw : w ∈ ws <;> simp [hb, hh, hc, hw]
    have hnone : ∀ w ∈ peerUnsent s.2 pws, pws.recorded pwm.broadcastWants w = none := by
      intro w hw
      obtain ⟨⟨-, hc⟩, hh⟩ := (hunsent w).mp hw
      have hb : w ∉ pws.wantBlocks := fun h => by
        rw [PeerWant.has_eq_true.mpr (.inl h)] at hh
        exact absurd hh (by simp)
      simp [PeerWant.recorded, hb, hh, hc]
    split
    · rename_i hemp
      refine .inl ⟨rfl, funext fun w => ?_⟩
      rw [hrec, List.isEmpty_iff.mp hemp]
      simp
    · refine .inr ⟨_, rfl, ⟨?_, hnone⟩, funext fun w => ?_⟩
      · rw [peerUnsent, hs.unsent, List.nil_append]
        exact (GoSet.nodup_fresh _ _).filter _
      · rw [hrec, QueueCall.apply]
        split
        · rename_i hw; rw [hnone w hw]; rfl
        · rfl
  · split at h
    · exact absurd h (by simp)
    · rw [← Option.some.inj h]

theorem accounts_sendWants (pwm : PeerWantManager) (p : PeerID) (bs hs : List Want) :
    Accounts pwm (pwm.sendWants p bs hs) := by
  cases hp : pwm.peerWants.lookup p with
  | none =>
      rw [sendWants, if_neg (AList.lookup_eq_none.mp hp)]
      exact ⟨fun _ h => h, fun q pws hq => ⟨pws, hq, .inl ⟨rfl, rfl⟩⟩⟩
  | some pws =>
      obtain ⟨B, H, pws', h⟩ := sendWants_spec bs hs hp
      refine ⟨fun q hq => ?_, fun q pws₀ hq => ?_⟩
      · have hqp : q ≠ p := fun he => by
          rw [he, hp] at hq
          exact absurd hq (by simp)
        rw [h.others q hqp, hq]
      · rw [h.calls, h.broadcastWants]
        by_cases hqp : q = p
        · subst hqp
          obtain rfl := Option.some.inj (hp.symm.trans hq)
          refine ⟨pws', h.peer, .inr ⟨.addWants B H, by simp [callsTo], ⟨⟨h.nodup.1, ?_⟩,
            ⟨h.nodup.2, ?_⟩, ?_⟩, funext fun w => ?_⟩⟩
          · intro w hw
            simp only [PeerWant.recorded, ((h.mem_blocks w).mp hw).2, if_false]
            split <;> simp
          · intro w hw
            obtain ⟨hc, hb, hh⟩ := h.mem_haves w hw
            have hb' : w ∉ pws.wantBlocks := fun h' => hb ((h.wantBlocks w).mpr (.inl h'))
            simp [PeerWant.recorded, hb', hh, hc]
          · intro w hw hwh
            exact (h.mem_haves w hwh).2.1 ((h.wantBlocks w).mpr (.inr ((h.mem_blocks w).mp hw).1))
          · -- by the list the want went in, or as before if it went in neither
            simp only [QueueCall.apply, PeerWant.recorded, h.has, h.wantBlocks, h.mem_blocks]
            by_cases hb : w ∈ pws.wantBlocks
            · have hH : w ∉ H := fun hw => (h.mem_haves w hw).2.1 ((h.wantBlocks w).mpr (.inl hb))
              simp [hb, hH]
            · by_cases hbs : w ∈ bs
              · simp [hb, hbs]
              · by_cases hH : w ∈ H
                · obtain ⟨hc, -, hh⟩ := h.mem_haves w hH
                  simp [hb, hbs, hH, hc, hh]
                · simp [hb, hbs, hH]
        · rw [h.others q hqp]
          exact ⟨pws₀, hq, .inl ⟨by simp [callsTo, Ne.symm hqp], rfl⟩⟩

theorem accounts_sendCancels {pwm : PeerWantManager} (ks : List Want) (o : RangeOrder)
    (h : pwm.IndexExact) : Accounts pwm (pwm.sendCancels ks o) := by
  have hc := sendCancels_spec ks o h
  refine ⟨hc.absent, fun q pws hq => ?_⟩
  obtain ⟨pws', tc, hq', hwo, htc, hcalls⟩ := hc.peer q pws hq
  refine ⟨pws', hq', ?_⟩
  rw [hcalls]
  have htold : ∀ w, pws.recorded pwm.broadcastWants w ≠ none ↔
      w ∈ pwm.broadcastWants ∨ pws.has w = true := by
    intro w
    rw [PeerWant.recorded]
    split
    · rename_i hb
      simp [PeerWant.has_eq_true.mpr (.inl hb)]
    · split
      · rename_i hh; simp only [ne_eq, reduceCtorEq, not_false_eq_true, true_iff]; tauto
      · rename_i hh; simp only [ne_eq, not_true, false_iff]; tauto
  have hrec : ∀ w, pws'.recorded (pwm.sendCancels ks o).1.broadcastWants w =
      if w ∈ tc then none else pws.recorded pwm.broadcastWants w := by
    intro w
    simp only [PeerWant.recorded, hwo.wantBlocks, hwo.has, hc.broadcastWants, htc]
    by_cases hk : w ∈ ks
    · have := htold w
      by_cases hh : w ∈ pwm.broadcastWants ∨ pws.has w = true
      · simp [hk, hh]
      · have hnone := not_not.mp (mt this.mp hh)
        simp only [PeerWant.recorded] at hnone
        simp [hk, hh, hnone]
    · simp [hk]
  split
  · rename_i hemp
    refine .inl ⟨rfl, funext fun w => ?_⟩
    rw [hrec, List.isEmpty_iff.mp hemp]
    simp
  · refine .inr ⟨_, rfl, fun w hw => (htold w).mpr ((htc w).mp hw).2, funext fun w => ?_⟩
    rw [hrec, QueueCall.apply]

end PeerWantManager

/-! ## The peer manager -/

/-- A queue taken as the calls made on it. -/
instance : PeerQueue (List QueueCall) := ⟨fun _ => [], fun q c => q ++ [c]⟩

namespace PeerManager

/-- The operations that reach the queues. -/
inductive Op where
  | connected (p : PeerID) (ob os : RangeOrder)
  | disconnected (p : PeerID) (ob oh os : RangeOrder)
  | broadcastWantHaves (wantHaves : List Want) (o : RangeOrder)
  | sendWants (p : PeerID) (wantBlocks wantHaves : List Want)
  | sendCancels (cancelKs : List Want) (o : RangeOrder)

def step {Q : Type} [PeerQueue Q] (pm : PeerManager Q) : Op → PeerManager Q
  | .connected p ob os => (pm.connected p ob os).1
  | .disconnected p ob oh os => (pm.disconnected p ob oh os).1
  | .broadcastWantHaves ws o => pm.broadcastWantHaves ws o
  | .sendWants p bs hs => pm.sendWants p bs hs
  | .sendCancels ks o => pm.sendCancels ks o

theorem lookup_deliver {p : PeerID} : ∀ (calls : Calls) (qs : GoMap PeerID (List QueueCall)),
    (deliver qs calls).lookup p = (qs.lookup p).map (· ++ callsTo calls p)
  | [], qs => by simp [deliver, callsTo]
  | c :: calls, qs => by
      have ih := lookup_deliver (p := p) calls (qs.modify c.1 (PeerQueue.call · c.2))
      show (deliver (qs.modify c.1 (PeerQueue.call · c.2)) calls).lookup p = _
      rw [ih, GoMap.lookup_modify]
      by_cases hp : p = c.1
      · subst hp
        simp [callsTo, PeerQueue.call, Option.map_map, Function.comp_def]
      · simp [callsTo, hp, Ne.symm hp]

/-- The queues and the record agree. -/
structure Accounted (pm : PeerManager (List QueueCall)) : Prop where
  index : pm.pwm.IndexExact
  absent : ∀ p, pm.peerQueues.lookup p = none ↔ pm.pwm.peerWants.lookup p = none
  told : ∀ p log pws, pm.peerQueues.lookup p = some log → pm.pwm.peerWants.lookup p = some pws →
    Fitting log ∧ told log = pws.recorded pm.pwm.broadcastWants

theorem accounted_new : (new : PeerManager (List QueueCall)).Accounted :=
  ⟨indexExact_new, fun p => by simp [new, PeerWantManager.new],
    fun p log pws h => by simp [new] at h⟩

theorem Accounted.applied {pm : PeerManager (List QueueCall)} {r : PeerWantManager × Calls}
    (h : pm.Accounted) (hr : Accounts pm.pwm r) (hix : r.1.IndexExact) :
    (pm.applied r).Accounted := by
  refine ⟨hix, fun p => ?_, fun p log' pws' hlog' hpws' => ?_⟩
  · show (deliver pm.peerQueues r.2).lookup p = none ↔ r.1.peerWants.lookup p = none
    rw [lookup_deliver, Option.map_eq_none_iff, h.absent p]
    refine ⟨hr.absent p, fun hnone => ?_⟩
    by_contra hsome
    obtain ⟨pws, hpws⟩ := Option.ne_none_iff_exists'.mp hsome
    obtain ⟨pws', hpws', -⟩ := hr.peer p pws hpws
    rw [hnone] at hpws'
    exact absurd hpws' (by simp)
  · have hd : (deliver pm.peerQueues r.2).lookup p = some log' := hlog'
    rw [lookup_deliver] at hd
    obtain ⟨log, hlog, rfl⟩ := Option.map_eq_some_iff.mp hd
    have hsome : pm.pwm.peerWants.lookup p ≠ none := fun hn => by
      simp [(h.absent p).mpr hn] at hlog
    obtain ⟨pws, hpws⟩ := Option.ne_none_iff_exists'.mp hsome
    obtain ⟨pws₁, hpws₁, hcall⟩ := hr.peer p pws hpws
    obtain rfl := Option.some.inj (hpws₁.symm.trans hpws')
    obtain ⟨hfit, ht⟩ := h.told p log pws hlog hpws
    exact hcall.fitting hfit ht

theorem lookup_getOrCreate {pm : PeerManager (List QueueCall)} {p q : PeerID} :
    (pm.getOrCreate p).peerQueues.lookup q =
      if q = p then some ((pm.peerQueues.lookup p).getD []) else pm.peerQueues.lookup q := by
  rw [getOrCreate]
  split
  · rename_i hp
    obtain ⟨log, hlog⟩ := GoMap.mem_iff_lookup.mp hp
    split
    · rename_i hq; rw [hq, hlog]; rfl
    · rfl
  · rename_i hp
    have hnone : pm.peerQueues.lookup p = none := AList.lookup_eq_none.mpr hp
    rw [GoMap.lookup_insert_ite, hnone]
    rfl

theorem accounted_connected {pm : PeerManager (List QueueCall)} (p : PeerID) (ob os : RangeOrder)
    (h : pm.Accounted) : (pm.connected p ob os).1.Accounted := by
  have hpwm : (pm.getOrCreate p).pwm = pm.pwm := by rw [getOrCreate]; split <;> rfl
  show ((pm.getOrCreate p).applied ((pm.getOrCreate p).pwm.addPeer p ob)).Accounted
  rw [hpwm]
  cases hq : pm.pwm.peerWants.lookup p with
  | some pws =>
      -- the peer is there already: neither its queue nor its record changes
      have hmem : p ∈ pm.peerQueues := by
        by_contra hno
        have := (h.absent p).mp (AList.lookup_eq_none.mpr hno)
        rw [hq] at this
        exact absurd this (by simp)
      rw [PeerWantManager.addPeer, if_pos (GoMap.mem_of_lookup hq), getOrCreate, if_pos hmem]
      exact h
  | none =>
      obtain ⟨hlook, hbcst, hself, hother⟩ := addPeer_spec ob hq
      have hqueue : pm.peerQueues.lookup p = none := (h.absent p).mpr hq
      refine ⟨indexExact_addPeer p ob h.index, fun q => ?_,
        fun q log pws hlog hpws => ?_⟩
      · show (deliver (pm.getOrCreate p).peerQueues _).lookup q = none ↔
          (pm.pwm.addPeer p ob).1.peerWants.lookup q = none
        rw [lookup_deliver, Option.map_eq_none_iff, lookup_getOrCreate, hlook]
        split
        · simp
        · exact h.absent q
      · have hd : (deliver (pm.getOrCreate p).peerQueues _).lookup q = some log := hlog
        have hw : (pm.pwm.addPeer p ob).1.peerWants.lookup q = some pws := hpws
        show Fitting log ∧
          BitswapAuth.told log = pws.recorded (pm.pwm.addPeer p ob).1.broadcastWants
        rw [lookup_deliver, lookup_getOrCreate] at hd
        rw [hlook] at hw
        obtain ⟨log', hlog', rfl⟩ := Option.map_eq_some_iff.mp hd
        by_cases hqp : q = p
        · subst hqp
          rw [if_pos rfl] at hw hlog'
          rw [hqueue] at hlog'
          obtain rfl := Option.some.inj hw
          obtain rfl := Option.some.inj hlog'
          exact hself.fitting fitting_nil rfl
        · rw [if_neg hqp] at hw hlog'
          rw [hother q hqp, List.append_nil, hbcst]
          exact h.told q log' pws hlog' hw

theorem accounted_disconnected {pm : PeerManager (List QueueCall)} (p : PeerID)
    (ob oh os : RangeOrder) (h : pm.Accounted) : (pm.disconnected p ob oh os).1.Accounted := by
  rw [disconnected]
  split
  · obtain ⟨hix, hb, hl⟩ := removePeer_spec p ob oh h.index
    refine ⟨hix, fun q => ?_, fun q log pws hlog hpws => ?_⟩
    · dsimp only
      rw [GoMap.lookup_erase_ite, hl]
      split
      · simp
      · exact h.absent q
    · dsimp only at hlog hpws ⊢
      obtain ⟨hq, hlog⟩ := GoMap.lookup_erase_eq_some.mp hlog
      rw [hl, if_neg hq] at hpws
      rw [hb]
      exact h.told q log pws hlog hpws
  · exact h

theorem accounted_step {pm : PeerManager (List QueueCall)} (op : Op) (h : pm.Accounted) :
    (pm.step op).Accounted := by
  cases op with
  | connected p ob os => exact accounted_connected p ob os h
  | disconnected p ob oh os => exact accounted_disconnected p ob oh os h
  | broadcastWantHaves ws o =>
      exact h.applied (accounts_broadcastWantHaves pm.pwm ws o)
        (indexExact_broadcastWantHaves ws o h.index)
  | sendWants p bs hs =>
      rw [step, sendWants]
      split
      · exact h.applied (accounts_sendWants pm.pwm p bs hs)
          (indexExact_sendWants p bs hs h.index)
      · exact h
  | sendCancels ks o =>
      exact h.applied (accounts_sendCancels ks o h.index)
        (indexExact_sendCancels ks o h.index)

theorem accounted_run (ops : List Op) :
    (run step (new : PeerManager (List QueueCall)) ops).Accounted :=
  run_invariant (I := Accounted) (fun _ op h => accounted_step op h) ops accounted_new

/-- **What a peer has been told is what is recorded.**  After any operations, a
connected peer holds just the want-blocks recorded for it, and as want-haves
just the other wants that are recorded as want-haves or broadcast; along the
calls on its queue each want is given with discipline, and cancelled only while
it is held. -/
theorem told_eq_recorded (ops : List Op) (p : PeerID) (log : List QueueCall)
    (hlog : (run step new ops).peerQueues.lookup p = some log) :
    ∃ pws, (run step (new : PeerManager (List QueueCall)) ops).pwm.peerWants.lookup p = some pws ∧
      (∀ w, (told log w = some .wantBlock ↔ w ∈ pws.wantBlocks) ∧
        (told log w = some .wantHave ↔ w ∉ pws.wantBlocks ∧
          (w ∈ pws.wantHaves ∨
            w ∈ (run step (new : PeerManager (List QueueCall)) ops).pwm.broadcastWants))) ∧
      (∀ w, Disciplined (given w log)) ∧
      ∀ before ks after, log = before ++ .addCancels ks :: after →
        ∀ w ∈ ks, told before w ≠ none := by
  have h := accounted_run ops
  have hsome : (run step new ops).pwm.peerWants.lookup p ≠ none := fun hn => by
    rw [(h.absent p).mpr hn] at hlog
    exact absurd hlog (by simp)
  obtain ⟨pws, hpws⟩ := Option.ne_none_iff_exists'.mp hsome
  obtain ⟨hfit, htold⟩ := h.told p log pws hlog hpws
  refine ⟨pws, hpws, fun w => ?_, fun w => (hfit.orderly w).1.disciplined,
    fun before ks after heq => hfit before (.addCancels ks) after heq⟩
  rw [htold, PeerWant.recorded]
  by_cases hb : w ∈ pws.wantBlocks
  · simp [hb]
  · simp only [hb, if_false, PeerWant.has_eq_true, false_or]
    split
    · rename_i hh; simp [hh]
    · rename_i hh; simp [hh]

/-- A want that is broadcast, upgraded to a want-block and cancelled, at a peer
that connected late. -/
theorem told_eq_recorded_upgrade :
    let w : Want := ⟨⟨[1]⟩, []⟩
    let p : PeerID := ⟨[7]⟩
    let ops : List Op := [.broadcastWantHaves [w] .stored, .connected p .stored .stored,
      .sendWants p [w] [w], .sendCancels [w] .stored, .sendWants p [] [w]]
    let log : List QueueCall := [.addBroadcastWantHaves [w], .addWants [w] [], .addCancels [w],
      .addWants [] [w]]
    (run step new ops).peerQueues.lookup p = some log ∧ told log w = some .wantHave ∧
      Disciplined (given w log) := by
  intro w p ops log
  have hlog : (run step new ops).peerQueues.lookup p = some log := by decide
  obtain ⟨_, -, -, hdis, -⟩ := told_eq_recorded ops p log hlog
  exact ⟨hlog, by decide, hdis w⟩

end PeerManager

end BitswapAuth
