/-
# `BitswapAuth.PeerManager.Gauges` — what the two wants gauges show

`wantGauge` is for the wants that are broadcast or have been sent to some peer, and
`wantBlockGauge` for those that some peer was sent as a want-block.  The manager never
counts them: each operation compares a want with what the index gave for it, before the
index was changed or after, and moves the gauges by one.

    addPeer, removePeer, broadcastWantHaves, sendWants, sendCancels   ⟹   the gauges are exact

Inside `removePeer` the peer is off the index for some of its wants and still has its
record, so the invariant is about the wants that the *index* finds (`Pending`,
`BlockPending`); with an exact index these are the wants that the records hold.
-/
import BitswapAuth.Lib.Gauge
import BitswapAuth.PeerManager.Record

namespace BitswapAuth

open Lib

namespace PeerWantManager

variable {pwm pwm' : PeerWantManager} {p : PeerID} {pws pws' : PeerWant} {w : Want}

/-! ## The wants that are counted -/

/-- The distinct wants that are broadcast, or recorded for a connected peer. -/
def outstanding (pwm : PeerWantManager) : Finset Want :=
  (pwm.broadcastWants.keys ++ pwm.peerWants.pairs.flatMap fun e =>
    e.2.wantBlocks.keys ++ e.2.wantHaves.keys).toFinset

/-- The distinct wants that are recorded as want-blocks for a connected peer. -/
def outstandingBlocks (pwm : PeerWantManager) : Finset Want :=
  (pwm.peerWants.pairs.flatMap fun e => e.2.wantBlocks.keys).toFinset

theorem mem_outstanding : w ∈ pwm.outstanding ↔
    w ∈ pwm.broadcastWants ∨ ∃ p pws, pwm.peerWants.lookup p = some pws ∧ pws.has w = true := by
  simp only [outstanding, List.mem_toFinset, List.mem_append, List.mem_flatMap, Prod.exists,
    GoMap.mem_pairs, PeerWant.has_eq_true, AList.mem_keys]

theorem mem_outstandingBlocks : w ∈ pwm.outstandingBlocks ↔
    ∃ p pws, pwm.peerWants.lookup p = some pws ∧ w ∈ pws.wantBlocks := by
  simp only [outstandingBlocks, List.mem_toFinset, List.mem_flatMap, Prod.exists,
    GoMap.mem_pairs, AList.mem_keys]

/-! ## The wants that the index finds -/

/-- The index has a peer for the want whose record is as said. -/
def Finds (pwm : PeerWantManager) (w : Want) (R : PeerWant → Prop) : Prop :=
  ∃ p pws, pwm.wantPeers.Linked w p ∧ pwm.peerWants.lookup p = some pws ∧ R pws

/-- The want is broadcast, or the index finds a peer that was sent it. -/
def Pending (pwm : PeerWantManager) (w : Want) : Prop :=
  w ∈ pwm.broadcastWants ∨ pwm.Finds w fun pws => pws.has w = true

/-- The index finds a peer that was sent the want as a want-block. -/
def BlockPending (pwm : PeerWantManager) (w : Want) : Prop :=
  pwm.Finds w fun pws => w ∈ pws.wantBlocks

/-- A count over the peers that the index has for a want is not zero when the index finds
one of those that are counted. -/
theorem countP_sent_pos {f : PeerWant → Bool} :
    0 < ((pwm.peersOf w).filterMap pwm.peerWants.lookup).countP f ↔
      pwm.Finds w fun pws => f pws = true := by
  simp only [List.countP_pos_iff, List.mem_filterMap, mem_peersOf]
  constructor
  · rintro ⟨pws, ⟨p, hl, hp⟩, hw⟩
    exact ⟨p, pws, hl, hp, hw⟩
  · rintro ⟨p, pws, hl, hp, hw⟩
    exact ⟨pws, ⟨p, hl, hp⟩, hw⟩

theorem wantBlock_pos : 0 < (pwm.wantPeerCounts w).wantBlock ↔ pwm.BlockPending w := by
  rw [wantPeerCounts, countP_sent_pos]
  simp only [GoSet.has_eq_true]
  rfl

theorem wantHave_pos : 0 < (pwm.wantPeerCounts w).wantHave ↔
    pwm.Finds w fun pws => w ∉ pws.wantBlocks ∧ w ∈ pws.wantHaves := by
  rw [wantPeerCounts, countP_sent_pos]
  simp only [Bool.and_eq_true, Bool.not_eq_true', ← Bool.not_eq_true, GoSet.has_eq_true]

theorem wanted_iff : (pwm.wantPeerCounts w).wanted = true ↔ pwm.Pending w := by
  have hb : (pwm.wantPeerCounts w).isBroadcast = true ↔ w ∈ pwm.broadcastWants :=
    GoSet.has_eq_true
  rw [WantPeerCnts.wanted, Bool.or_eq_true, Bool.or_eq_true, decide_eq_true_iff,
    decide_eq_true_iff, hb, gt_iff_lt, gt_iff_lt, wantBlock_pos, wantHave_pos, Pending]
  constructor
  · rintro ((⟨p, pws, hl, hp, hw⟩ | ⟨p, pws, hl, hp, hw⟩) | hw)
    · exact .inr ⟨p, pws, hl, hp, PeerWant.has_eq_true.mpr (.inl hw)⟩
    · exact .inr ⟨p, pws, hl, hp, PeerWant.has_eq_true.mpr (.inr hw.2)⟩
    · exact .inl hw
  · rintro (hw | ⟨p, pws, hl, hp, hw⟩)
    · exact .inr hw
    · by_cases hblock : w ∈ pws.wantBlocks
      · exact .inl (.inl ⟨p, pws, hl, hp, hblock⟩)
      · exact .inl (.inr ⟨p, pws, hl, hp, hblock,
          (PeerWant.has_eq_true.mp hw).resolve_left hblock⟩)

/-- With an exact index the wants it finds are the wants of the records. -/
theorem IndexExact.pending_iff (h : pwm.IndexExact) : pwm.Pending w ↔ w ∈ pwm.outstanding := by
  rw [mem_outstanding, Pending]
  refine or_congr_right ⟨?_, ?_⟩
  · rintro ⟨p, pws, -, hp, hw⟩
    exact ⟨p, pws, hp, hw⟩
  · rintro ⟨p, pws, hp, hw⟩
    exact ⟨p, pws, (h w p).mpr ⟨pws, hp, hw⟩, hp, hw⟩

theorem IndexExact.blockPending_iff (h : pwm.IndexExact) :
    pwm.BlockPending w ↔ w ∈ pwm.outstandingBlocks := by
  rw [mem_outstandingBlocks]
  constructor
  · rintro ⟨p, pws, -, hp, hw⟩
    exact ⟨p, pws, hp, hw⟩
  · rintro ⟨p, pws, hp, hw⟩
    exact ⟨p, pws, (h w p).mpr ⟨pws, hp, PeerWant.has_eq_true.mpr (.inl hw)⟩, hp, hw⟩

/-! ## The invariant -/

/-- No peer has a want both as a want-block and as a want-have. -/
def OneForm (pwm : PeerWantManager) : Prop :=
  ∀ p pws w, pwm.peerWants.lookup p = some pws → w ∈ pws.wantBlocks → w ∉ pws.wantHaves

/-- The two gauges count the wants that the index finds. -/
structure Gauged (pwm : PeerWantManager) : Prop where
  wants : Counts pwm.wantGauge pwm.Pending
  blocks : Counts pwm.wantBlockGauge pwm.BlockPending

/-- The index and the records say the same, no entry of the index is empty, and no record has a
want in both forms. -/
structure Indexed (pwm : PeerWantManager) : Prop where
  index : pwm.IndexExact
  nonempty : pwm.wantPeers.NonemptySets
  oneForm : pwm.OneForm

/-- What every operation keeps. -/
structure Exact (pwm : PeerWantManager) : Prop extends Indexed pwm where
  gauged : pwm.Gauged

theorem exact_new : new.Exact where
  index := indexExact_new
  nonempty := fun w hw => absurd hw (AList.notMem_empty w)
  oneForm := fun p pws w hp => by simp [new] at hp
  gauged :=
    ⟨Counts.none (by simp [Pending, Finds, new]), Counts.none (by simp [BlockPending, Finds, new])⟩

/-- What the index finds depends on its peers for the want and on their records. -/
theorem finds_congr {R : PeerWant → Prop}
    (hl : ∀ p, pwm'.wantPeers.Linked w p ↔ pwm.wantPeers.Linked w p)
    (hp : ∀ p, pwm.wantPeers.Linked w p → pwm'.peerWants.lookup p = pwm.peerWants.lookup p) :
    pwm'.Finds w R ↔ pwm.Finds w R := by
  refine exists_congr fun p => exists_congr fun pws => ?_
  rw [hl]
  refine and_congr_right fun hlink => ?_
  rw [hp p hlink]

theorem Gauged.congr (h : pwm.Gauged) (hw : pwm'.wantGauge = pwm.wantGauge)
    (hb : pwm'.wantBlockGauge = pwm.wantBlockGauge)
    (hbc : pwm'.broadcastWants = pwm.broadcastWants)
    (hf : ∀ w R, pwm'.Finds w R ↔ pwm.Finds w R) : pwm'.Gauged where
  wants := hw ▸ h.wants.congr fun w => by rw [Pending, Pending, hbc, hf]
  blocks := hb ▸ h.blocks.congr fun w => hf w _

/-! ## A peer comes -/

theorem oneForm_addPeer (p : PeerID) (o : RangeOrder) (h : pwm.OneForm) :
    (pwm.addPeer p o).1.OneForm := by
  rw [addPeer]
  split
  · exact h
  · intro q pws w hq hw
    rcases GoMap.lookup_insert_eq_some.mp hq with ⟨-, rfl⟩ | ⟨-, hq⟩
    · exact AList.notMem_empty w
    · exact h q pws w hq hw

theorem exact_addPeer (p : PeerID) (o : RangeOrder) (h : pwm.Exact) :
    (pwm.addPeer p o).1.Exact := by
  have hindex := indexExact_addPeer p o h.index
  have hform := oneForm_addPeer p o h.oneForm
  revert hindex hform
  rw [addPeer]
  split
  · exact fun _ _ => h
  · rename_i hp
    intro hindex hform
    refine ⟨⟨hindex, h.nonempty, hform⟩, h.gauged.congr rfl rfl rfl ?_⟩
    -- the index has no want for a peer that is new
    intro w R
    refine finds_congr (fun _ => Iff.rfl) fun q hlink => AList.lookup_insert_ne ?_
    rintro rfl
    obtain ⟨pws, hq, -⟩ := (h.index w q).mp hlink
    exact hp (GoMap.mem_of_lookup hq)

/-! ## A peer goes -/

theorem finds_unlink_ne {R : PeerWant → Prop} {k : Want} (hw : w ≠ k) :
    Finds { pwm with wantPeers := pwm.wantPeers.unlink k p } w R ↔ pwm.Finds w R := by
  refine finds_congr (fun q => ?_) fun _ _ => rfl
  rw [GoMap.linked_unlink]
  exact and_iff_right fun hk => hw hk.1

/-- One want-block of a peer cleaned up: the want was counted, and is counted still if the
index finds it without the peer. -/
theorem Gauged.dropWantBlock (h : pwm.Gauged) (hl : pwm.wantPeers.Linked w p)
    (hp : pwm.peerWants.lookup p = some pws) (hw : w ∈ pws.wantBlocks) :
    (dropWantBlock p pwm w).Gauged := by
  have hblock : pwm.BlockPending w := ⟨p, pws, hl, hp, hw⟩
  have hpend : pwm.Pending w := .inr ⟨p, pws, hl, hp, PeerWant.has_eq_true.mpr (.inl hw)⟩
  refine ⟨h.wants.leave hpend wanted_iff fun x hx => or_congr_right (finds_unlink_ne hx), ?_⟩
  have hcounts := h.blocks.leave hblock (Nat.pos_iff_ne_zero.symm.trans wantBlock_pos)
    fun x hx => finds_unlink_ne (p := p) hx
  rwa [ite_not] at hcounts

/-- One want-have of a peer cleaned up.  The peer was not what made it a pending want-block. -/
theorem Gauged.dropWantHave (h : pwm.Gauged) (hl : pwm.wantPeers.Linked w p)
    (hp : pwm.peerWants.lookup p = some pws) (hw : w ∈ pws.wantHaves ∧ w ∉ pws.wantBlocks) :
    (dropWantHave p pwm w).Gauged := by
  have hpend : pwm.Pending w := .inr ⟨p, pws, hl, hp, PeerWant.has_eq_true.mpr (.inr hw.1)⟩
  refine ⟨h.wants.leave hpend wanted_iff fun x hx => or_congr_right (finds_unlink_ne hx), ?_⟩
  refine h.blocks.congr fun x => ?_
  by_cases hx : x = w
  · subst hx
    constructor
    · rintro ⟨q, u, hlink, hq, hu⟩
      exact ⟨q, u, (GoMap.linked_unlink.mp hlink).2, hq, hu⟩
    · rintro ⟨q, u, hlink, hq, hu⟩
      refine ⟨q, u, GoMap.linked_unlink.mpr ⟨?_, hlink⟩, hq, hu⟩
      rintro ⟨-, rfl⟩
      rw [Option.some.inj (hq.symm.trans hp)] at hu
      exact hw.2 hu
  · exact finds_unlink_ne hx

/-- A clean-up loop of `removePeer`: every want is on the index when its turn comes, since
only the wants before it have been taken off. -/
theorem Gauged.foldl_drop {f : PeerWantManager → Want → PeerWantManager} {S : Want → Prop}
    (hf : ∀ pwm w, (f pwm w).peerWants = pwm.peerWants ∧
      (f pwm w).wantPeers = pwm.wantPeers.unlink w p)
    (hstep : ∀ pwm w, pwm.Gauged → pwm.wantPeers.Linked w p →
      pwm.peerWants.lookup p = some pws → S w → (f pwm w).Gauged) :
    ∀ {ws : List Want} {pwm : PeerWantManager}, pwm.Gauged → ws.Nodup →
      pwm.peerWants.lookup p = some pws → (∀ w ∈ ws, S w ∧ pwm.wantPeers.Linked w p) →
      (ws.foldl f pwm).Gauged
  | [], _, h, _, _, _ => h
  | k :: ws, pwm, h, hnd, hp, hws => by
      obtain ⟨hk, hnd⟩ := List.nodup_cons.mp hnd
      obtain ⟨hS, hlink⟩ := hws k List.mem_cons_self
      rw [List.foldl_cons]
      refine foldl_drop hf hstep (hstep pwm k h hlink hp hS) hnd ?_ fun w hw => ?_
      · rw [(hf pwm k).1, hp]
      · obtain ⟨hSw, hlw⟩ := hws w (List.mem_cons_of_mem k hw)
        rw [(hf pwm k).2]
        exact ⟨hSw, GoMap.linked_unlink.mpr ⟨fun he => hk (he.1 ▸ hw), hlw⟩⟩

theorem gauged_removePeer (p : PeerID) (ob oh : RangeOrder) (h : pwm.Exact) :
    (pwm.removePeer p ob oh).Gauged := by
  rw [removePeer]
  split
  · exact h.gauged
  · rename_i pws hp
    have hlinked : ∀ w, pwm.wantPeers.Linked w p ↔ pws.has w = true := by
      intro w
      rw [h.index w p, hp]
      simp
    have hd := foldl_dropped (f := dropWantBlock p) (fun _ _ => ⟨rfl, rfl, rfl⟩)
      (ob.range pws.wantBlocks.keys) pwm
    have hd' := foldl_dropped (f := dropWantHave p) (fun _ _ => ⟨rfl, rfl, rfl⟩)
      (oh.range pws.wantHaves.keys) ((ob.range pws.wantBlocks.keys).foldl (dropWantBlock p) pwm)
    have hblocks : ((ob.range pws.wantBlocks.keys).foldl (dropWantBlock p) pwm).Gauged := by
      refine Gauged.foldl_drop (S := (· ∈ pws.wantBlocks)) (f := dropWantBlock p)
        (fun _ _ => ⟨rfl, rfl⟩) (fun _ _ hg => hg.dropWantBlock) h.gauged
        (RangeOrder.nodup_range.mpr pws.wantBlocks.keys_nodup) hp fun w hw => ?_
      have hw := AList.mem_keys.mp (RangeOrder.mem_range.mp hw)
      exact ⟨hw, (hlinked w).mpr (PeerWant.has_eq_true.mpr (.inl hw))⟩
    have hhaves : ((oh.range pws.wantHaves.keys).foldl (dropWantHave p)
        ((ob.range pws.wantBlocks.keys).foldl (dropWantBlock p) pwm)).Gauged := by
      refine Gauged.foldl_drop (S := fun w => w ∈ pws.wantHaves ∧ w ∉ pws.wantBlocks)
        (f := dropWantHave p) (fun _ _ => ⟨rfl, rfl⟩) (fun _ _ hg => hg.dropWantHave) hblocks
        (RangeOrder.nodup_range.mpr pws.wantHaves.keys_nodup) (hd.peerWants ▸ hp) fun w hw => ?_
      have hw := AList.mem_keys.mp (RangeOrder.mem_range.mp hw)
      have hno : w ∉ pws.wantBlocks := fun hb => h.oneForm p pws w hp hb hw
      refine ⟨⟨hw, hno⟩, (hd.linked w p).mpr ⟨?_, fun hb => ?_⟩⟩
      · exact (hlinked w).mpr (PeerWant.has_eq_true.mpr (.inr hw))
      · exact hno (AList.mem_keys.mp (RangeOrder.mem_range.mp hb.1))
    -- the record that is deleted is one the index no longer leads to
    refine hhaves.congr rfl rfl rfl fun w R => finds_congr (fun _ => Iff.rfl) fun q hlink => ?_
    refine AList.lookup_erase_ne ?_
    rintro rfl
    obtain ⟨hlink, hnh⟩ := (hd'.linked w q).mp hlink
    obtain ⟨hlink, hnb⟩ := (hd.linked w q).mp hlink
    rcases PeerWant.has_eq_true.mp ((hlinked w).mp hlink) with hw | hw
    · exact hnb ⟨RangeOrder.mem_range.mpr (AList.mem_keys.mpr hw), rfl⟩
    · exact hnh ⟨RangeOrder.mem_range.mpr (AList.mem_keys.mpr hw), rfl⟩

theorem oneForm_removePeer (p : PeerID) (ob oh : RangeOrder) (hindex : pwm.IndexExact)
    (h : pwm.OneForm) : (pwm.removePeer p ob oh).OneForm := by
  obtain ⟨-, -, hlookup⟩ := removePeer_spec p ob oh hindex
  intro q pws w hq hw
  rw [hlookup] at hq
  split at hq
  · cases hq
  · exact h q pws w hq hw

theorem exact_removePeer (p : PeerID) (ob oh : RangeOrder) (h : pwm.Exact) :
    (pwm.removePeer p ob oh).Exact where
  index := (removePeer_spec p ob oh h.index).1
  nonempty := nonemptySets_removePeer p ob oh h.nonempty
  oneForm := oneForm_removePeer p ob oh h.index h.oneForm
  gauged := gauged_removePeer p ob oh h

/-! ## Wants are broadcast -/

/-- A want that comes to the broadcast wants was counted if the index has it. -/
theorem exact_recordBroadcast (s : PeerWantManager × List Want) (w : Want) (h : s.1.Exact) :
    (recordBroadcast s w).1.Exact := by
  rw [recordBroadcast]
  split
  · exact h
  · rename_i hw
    have hno : w ∉ s.1.broadcastWants := fun hin => hw (GoSet.has_eq_true.mpr hin)
    refine ⟨⟨h.index, h.nonempty, h.oneForm⟩, ?_, h.gauged.blocks⟩
    have hfound : w ∈ s.1.wantPeers ↔ s.1.Pending w := by
      constructor
      · intro hmem
        obtain ⟨p, hl⟩ := h.nonempty w hmem
        obtain ⟨pws, hp, hhas⟩ := (h.index w p).mp hl
        exact .inr ⟨p, pws, hl, hp, hhas⟩
      · rintro (hin | ⟨p, -, ⟨ps, hps, -⟩, -⟩)
        · exact absurd hin hno
        · exact GoMap.mem_of_lookup hps
    refine h.gauged.wants.enter hfound fun x => ?_
    show x ∈ s.1.broadcastWants.add w ∨ s.1.Finds x _ ↔ _
    rw [GoSet.mem_add, Pending, or_right_comm, or_comm (a := x = w), or_right_comm,
      or_comm (a := x ∈ _)]

theorem exact_broadcastWantHaves (ws : List Want) (o : RangeOrder) (h : pwm.Exact) :
    (pwm.broadcastWantHaves ws o).1.Exact :=
  run_invariant (I := fun s => s.1.Exact) exact_recordBroadcast ws (s := (pwm, [])) h

/-! ## Wants are sent to a peer -/

theorem IndexExact.sentTo {s s' : PeerWantManager × List Want} {new : List Want}
    (h : s.1.IndexExact) (hp : s.1.peerWants.lookup p = some pws)
    (hs : SentTo p new pws pws' s s') : s'.1.IndexExact := by
  intro w q
  rw [hs.linked, h w q]
  by_cases hq : q = p
  · subst hq
    simp [hs.peer, hp, hs.has]
  · simp [hs.others q hq, hq]

/-- Some record is as said after one of them was replaced. -/
theorem exists_record_replaced {R : PeerWant → Prop} {c : Prop}
    (hp : pwm.peerWants.lookup p = some pws) (hp' : pwm'.peerWants.lookup p = some pws')
    (hq : ∀ q, q ≠ p → pwm'.peerWants.lookup q = pwm.peerWants.lookup q)
    (hR : R pws' ↔ R pws ∨ c) :
    (∃ q u, pwm'.peerWants.lookup q = some u ∧ R u) ↔
      (∃ q u, pwm.peerWants.lookup q = some u ∧ R u) ∨ c := by
  constructor
  · rintro ⟨q, u, hu, hr⟩
    by_cases hqp : q = p
    · subst hqp
      obtain rfl := Option.some.inj (hp'.symm.trans hu)
      exact (hR.mp hr).imp_left fun hr => ⟨q, pws, hp, hr⟩
    · exact .inl ⟨q, u, (hq q hqp).symm.trans hu, hr⟩
  · rintro (⟨q, u, hu, hr⟩ | hc)
    · by_cases hqp : q = p
      · subst hqp
        obtain rfl := Option.some.inj (hp.symm.trans hu)
        exact ⟨q, pws', hp', hR.mpr (.inl hr)⟩
      · exact ⟨q, u, (hq q hqp).trans hu, hr⟩
    · exact ⟨p, pws', hp', hR.mpr (.inr hc)⟩

theorem OneForm.sentTo {s s' : PeerWantManager × List Want} {new : List Want} (h : s.1.OneForm)
    (hs : SentTo p new pws pws' s s') (hform : ∀ w ∈ pws'.wantBlocks, w ∉ pws'.wantHaves) :
    s'.1.OneForm := by
  intro q u w hu hw
  by_cases hq : q = p
  · subst hq
    obtain rfl := Option.some.inj (hs.peer.symm.trans hu)
    exact hform w hw
  · exact h q u w ((hs.others q hq).symm.trans hu) hw

theorem oneForm_sendWantBlock (p : PeerID) (s : PeerWantManager × List Want) (c : Want)
    (h : s.1.OneForm) : (sendWantBlock p s c).1.OneForm := by
  cases hp : s.1.peerWants.lookup p with
  | none => simpa only [sendWantBlock, hp] using h
  | some pws =>
      by_cases hc : c ∈ pws.wantBlocks
      · simpa only [sendWantBlock, hp, GoSet.has_eq_true.mpr hc, if_true] using h
      · refine h.sentTo (sendWantBlock_spec hp hc) fun w hw hh => ?_
        -- the want-block is no longer recorded as a want-have
        obtain ⟨hne, hh⟩ := GoSet.mem_remove.mp hh
        exact h p pws w hp ((GoSet.mem_add.mp hw).resolve_left hne) hh

theorem oneForm_sendWantHave (p : PeerID) (s : PeerWantManager × List Want) (c : Want)
    (h : s.1.OneForm) : (sendWantHave p s c).1.OneForm := by
  cases hp : s.1.peerWants.lookup p with
  | none => simpa only [sendWantHave, hp] using h
  | some pws =>
      by_cases hb : c ∈ s.1.broadcastWants
      · simpa only [sendWantHave, hp, GoSet.has_eq_true.mpr hb, if_true] using h
      · cases hc : pws.has c with
        | true => simpa [sendWantHave, hp, GoSet.has_eq_false.mpr hb, hc] using h
        | false =>
            refine h.sentTo (sendWantHave_spec hp hb hc) fun w hw hh => ?_
            rcases GoSet.mem_add.mp hh with rfl | hh
            · have hhas : pws.has w = true := PeerWant.has_eq_true.mpr (.inl hw)
              rw [hc] at hhas
              cases hhas
            · exact h p pws w hp hw hh

/-- One want sent to a peer, with the gauges as the counts from before the change say. -/
theorem Exact.sentTo {s s' : PeerWantManager × List Want} {c : Want} (h : s.1.Exact)
    (hp : s.1.peerWants.lookup p = some pws) (hs : SentTo p [c] pws pws' s s')
    (hne : s'.1.wantPeers.NonemptySets) (hform : s'.1.OneForm)
    (hwants : s'.1.wantGauge =
      if (s.1.wantPeerCounts c).wanted then s.1.wantGauge else s.1.wantGauge + 1)
    (hblocks : Counts s'.1.wantBlockGauge (· ∈ s'.1.outstandingBlocks)) : s'.1.Exact := by
  have hindex := h.index.sentTo hp hs
  refine ⟨⟨hindex, hne, hform⟩, ?_, hblocks.congr fun w => hindex.blockPending_iff⟩
  rw [hwants]
  refine h.gauged.wants.enter wanted_iff fun x => ?_
  rw [hindex.pending_iff, h.index.pending_iff, mem_outstanding, mem_outstanding,
    hs.broadcastWants, or_assoc]
  refine or_congr_right (exists_record_replaced hp hs.peer hs.others ?_)
  rw [hs.has, List.mem_singleton, or_comm]

theorem exact_sendWantBlock (p : PeerID) (s : PeerWantManager × List Want) (c : Want)
    (h : s.1.Exact) : (sendWantBlock p s c).1.Exact := by
  cases hp : s.1.peerWants.lookup p with
  | none => simpa only [sendWantBlock, hp] using h
  | some pws =>
      cases hc : pws.wantBlocks.has c with
      | true => simpa only [sendWantBlock, hp, hc, if_true] using h
      | false =>
          have hno : c ∉ pws.wantBlocks := fun hin => by simp [GoSet.has_eq_true.mpr hin] at hc
          have hs := sendWantBlock_spec hp hno
          refine h.sentTo hp hs (nonemptySets_sendWantBlock p s c h.nonempty)
            (oneForm_sendWantBlock p s c h.oneForm) ?_ ?_
          · simp [sendWantBlock, hp, hc]
          · have hg : (sendWantBlock p s c).1.wantBlockGauge =
                if 0 < (s.1.wantPeerCounts c).wantBlock then s.1.wantBlockGauge
                else s.1.wantBlockGauge + 1 := by
              simp [sendWantBlock, hp, hc, Nat.pos_iff_ne_zero]
            rw [hg]
            refine h.gauged.blocks.enter wantBlock_pos fun x => ?_
            rw [h.index.blockPending_iff, mem_outstandingBlocks, mem_outstandingBlocks]
            exact exists_record_replaced hp hs.peer hs.others (GoSet.mem_add.trans or_comm)

theorem exact_sendWantHave (p : PeerID) (s : PeerWantManager × List Want) (c : Want)
    (h : s.1.Exact) : (sendWantHave p s c).1.Exact := by
  cases hp : s.1.peerWants.lookup p with
  | none => simpa only [sendWantHave, hp] using h
  | some pws =>
      cases hb : s.1.broadcastWants.has c with
      | true => simpa only [sendWantHave, hp, hb, if_true] using h
      | false =>
          cases hc : pws.has c with
          | true => simpa [sendWantHave, hp, hb, hc] using h
          | false =>
              have hno : c ∉ s.1.broadcastWants :=
                fun hin => by simp [GoSet.has_eq_true.mpr hin] at hb
              have hs := sendWantHave_spec hp hno hc
              refine h.sentTo hp hs (nonemptySets_sendWantHave p s c h.nonempty)
                (oneForm_sendWantHave p s c h.oneForm) ?_ ?_
              · simp [sendWantHave, hp, hb, hc]
              · have hg : (sendWantHave p s c).1.wantBlockGauge = s.1.wantBlockGauge := by
                  simp [sendWantHave, hp, hb, hc]
                rw [hg]
                refine h.gauged.blocks.congr fun x => ?_
                rw [h.index.blockPending_iff, mem_outstandingBlocks, mem_outstandingBlocks]
                have hsame := exists_record_replaced (c := False) (R := (x ∈ ·.wantBlocks))
                  hp hs.peer hs.others (by simp)
                rwa [or_false] at hsame

theorem exact_sendWants (p : PeerID) (bs hs : List Want) (h : pwm.Exact) :
    (pwm.sendWants p bs hs).1.Exact := by
  rw [sendWants]
  split
  · let I : PeerWantManager × List Want → Prop := fun s => s.1.Exact
    have hb := run_invariant (I := I) (exact_sendWantBlock p) bs (s := (pwm, [])) h
    exact run_invariant (I := I) (exact_sendWantHave p) hs (s := (_, [])) hb
  · exact h

/-! ## Wants are cancelled -/

/-- The gauges are moved by the counts from before the cancel. -/
theorem gauges_sendCancels (ks : List Want) (o : RangeOrder) :
    (pwm.sendCancels ks o).1.wantGauge =
        ks.foldl (fun g k => if (pwm.wantPeerCounts k).wanted then g - 1 else g) pwm.wantGauge ∧
      (pwm.sendCancels ks o).1.wantBlockGauge =
        ks.foldl (fun g k => if 0 < (pwm.wantPeerCounts k).wantBlock then g - 1 else g)
          pwm.wantBlockGauge := by
  have hsent : ∀ (bc : List Want) (s : PeerWantManager × Calls) (p : PeerID),
      ((sendCancelsTo bc ks s p).1.wantGauge, (sendCancelsTo bc ks s p).1.wantBlockGauge) =
        (s.1.wantGauge, s.1.wantBlockGauge) := by
    intro bc s p
    rw [sendCancelsTo]
    split <;> rfl
  rw [sendCancels]
  split
  · rename_i hks
    obtain rfl := List.isEmpty_iff.mp hks
    exact ⟨rfl, rfl⟩
  · dsimp only
    set bc := ks.filter pwm.broadcastWants.has
    have hkeep := foldl_keeps (fun s => (s.1.wantGauge, s.1.wantBlockGauge)) (hsent bc)
      (o.range (pwm.cancelPeers bc ks)) (pwm, [])
    obtain ⟨hw, hb⟩ := Prod.mk.inj hkeep
    constructor
    · rw [← hw]
      exact (List.foldl_hom PeerWantManager.wantGauge fun _ _ => rfl).symm
    · rw [← hb]
      exact (List.foldl_hom PeerWantManager.wantBlockGauge fun _ _ => rfl).symm

/-- A record after the cancel is what is left of one before. -/
theorem Cancelled.record {ks : List Want} {r : PeerWantManager × Calls} (hc : Cancelled ks pwm r)
    {q : PeerID} {u : PeerWant} (hu : r.1.peerWants.lookup q = some u) :
    ∃ pws, pwm.peerWants.lookup q = some pws ∧ Without ks pws u := by
  cases hq : pwm.peerWants.lookup q with
  | none => simp [hc.absent q hq] at hu
  | some pws =>
      obtain ⟨pws', _, hq', hwo, -⟩ := hc.peer q pws hq
      obtain rfl := Option.some.inj (hq'.symm.trans hu)
      exact ⟨pws, rfl, hwo⟩

/-- Some record is as said after the keys were cancelled. -/
theorem Cancelled.exists_record {ks : List Want} {r : PeerWantManager × Calls}
    (hc : Cancelled ks pwm r) {R : PeerWant → Prop}
    (hR : ∀ pws pws', Without ks pws pws' → (R pws' ↔ R pws ∧ w ∉ ks)) :
    (∃ q u, r.1.peerWants.lookup q = some u ∧ R u) ↔
      (∃ q u, pwm.peerWants.lookup q = some u ∧ R u) ∧ w ∉ ks := by
  constructor
  · rintro ⟨q, u, hu, hr⟩
    obtain ⟨pws, hq, hwo⟩ := hc.record hu
    obtain ⟨hr, hw⟩ := (hR pws u hwo).mp hr
    exact ⟨⟨q, pws, hq, hr⟩, hw⟩
  · rintro ⟨⟨q, pws, hq, hr⟩, hw⟩
    obtain ⟨pws', _, hq', hwo, -⟩ := hc.peer q pws hq
    exact ⟨q, pws', hq', (hR pws pws' hwo).mpr ⟨hr, hw⟩⟩

theorem oneForm_sendCancels (ks : List Want) (o : RangeOrder) (hindex : pwm.IndexExact)
    (h : pwm.OneForm) : (pwm.sendCancels ks o).1.OneForm := by
  intro q u w hu hw hh
  obtain ⟨pws, hq, hwo⟩ := (sendCancels_spec ks o hindex).record hu
  exact h q pws w hq ((hwo.wantBlocks w).mp hw).1 ((hwo.wantHaves w).mp hh).1

theorem exact_sendCancels (ks : List Want) (o : RangeOrder) (hnd : ks.Nodup) (h : pwm.Exact) :
    (pwm.sendCancels ks o).1.Exact := by
  have hindex := indexExact_sendCancels ks o h.index
  have hc := sendCancels_spec ks o h.index
  obtain ⟨hwants, hblocks⟩ := @gauges_sendCancels pwm ks o
  refine ⟨⟨hindex, nonemptySets_sendCancels ks o h.nonempty,
    oneForm_sendCancels ks o h.index h.oneForm⟩, ?_, ?_⟩
  · rw [hwants]
    refine (h.gauged.wants.leaveAll hnd fun k _ => wanted_iff).congr fun x => ?_
    rw [hindex.pending_iff, h.index.pending_iff, mem_outstanding, mem_outstanding,
      hc.broadcastWants, hc.exists_record fun _ _ hwo => hwo.has x, or_and_right]
  · rw [hblocks]
    refine (h.gauged.blocks.leaveAll hnd fun k _ => wantBlock_pos).congr fun x => ?_
    rw [hindex.blockPending_iff, h.index.blockPending_iff, mem_outstandingBlocks,
      mem_outstandingBlocks, hc.exists_record fun _ _ hwo => hwo.wantBlocks x]

/-! ## Runs -/

/-- The operations of the manager, with the orders in which they visit their maps. -/
inductive Op where
  | addPeer (p : PeerID) (o : RangeOrder)
  | removePeer (p : PeerID) (ob oh : RangeOrder)
  | broadcastWantHaves (wantHaves : List Want) (o : RangeOrder)
  | sendWants (p : PeerID) (wantBlocks wantHaves : List Want)
  | sendCancels (cancelKs : List Want) (o : RangeOrder)

def step (pwm : PeerWantManager) : Op → PeerWantManager
  | .addPeer p o => (pwm.addPeer p o).1
  | .removePeer p ob oh => pwm.removePeer p ob oh
  | .broadcastWantHaves ws o => (pwm.broadcastWantHaves ws o).1
  | .sendWants p bs hs => (pwm.sendWants p bs hs).1
  | .sendCancels ks o => (pwm.sendCancels ks o).1

/-- The keys to be cancelled are all different. -/
def Op.NoRepeats : Op → Prop
  | .sendCancels ks _ => ks.Nodup
  | _ => True

theorem exact_step {op : Op} (hop : op.NoRepeats) (h : pwm.Exact) : (pwm.step op).Exact := by
  cases op with
  | addPeer p o => exact exact_addPeer p o h
  | removePeer p ob oh => exact exact_removePeer p ob oh h
  | broadcastWantHaves ws o => exact exact_broadcastWantHaves ws o h
  | sendWants p bs hs => exact exact_sendWants p bs hs h
  | sendCancels ks o => exact exact_sendCancels ks o hop h

theorem exact_run {ops : List Op} (hops : ∀ op ∈ ops, op.NoRepeats) (h : pwm.Exact) :
    (run step pwm ops).Exact := by
  induction ops generalizing pwm with
  | nil => exact h
  | cons op ops ih =>
      obtain ⟨hop, hops⟩ := List.forall_mem_cons.mp hops
      exact ih hops (exact_step hop h)

/-- **The gauges are exact after every run**: one is the number of distinct wants that are
broadcast or recorded for a peer, the other the number of those that are recorded as
want-blocks. -/
theorem gauges_exact (ops : List Op) (hops : ∀ op ∈ ops, op.NoRepeats) :
    (run step new ops).wantGauge = (run step new ops).outstanding.card ∧
      (run step new ops).wantBlockGauge = (run step new ops).outstandingBlocks.card := by
  have h := exact_run hops exact_new
  exact ⟨h.gauged.wants.eq_card fun _ => h.index.pending_iff.symm,
    h.gauged.blocks.eq_card fun _ => h.index.blockPending_iff.symm⟩

/-- A want that is broadcast and sent to two peers is counted once, also when one of them
goes. -/
theorem gauges_exact_overlap :
    let w₁ : Want := ⟨⟨[1]⟩, []⟩
    let w₂ : Want := ⟨⟨[2]⟩, []⟩
    let w₃ : Want := ⟨⟨[3]⟩, []⟩
    let p : PeerID := ⟨[7]⟩
    let q : PeerID := ⟨[8]⟩
    let ops : List Op := [.addPeer p .stored, .addPeer q .stored, .broadcastWantHaves [w₁] .stored,
      .sendWants p [w₁, w₂] [w₃], .sendWants q [w₂] [w₂, w₃], .removePeer p .stored .stored,
      .sendCancels [w₁, w₃] .stored]
    (∀ op ∈ ops, op.NoRepeats) ∧ (run step new ops).outstanding = {w₂} ∧
      (run step new ops).wantGauge = 1 ∧ (run step new ops).wantBlockGauge = 1 := by
  intro w₁ w₂ w₃ p q ops
  have hops : ∀ op ∈ ops, op.NoRepeats := by
    simp [ops, Op.NoRepeats, w₁, w₃]
  have hout : (run step new ops).outstanding = {w₂} := by decide
  have hblocks : (run step new ops).outstandingBlocks = {w₂} := by decide
  obtain ⟨hw, hb⟩ := gauges_exact ops hops
  rw [hout] at hw
  rw [hblocks] at hb
  exact ⟨hops, hout, hw, hb⟩

end PeerWantManager

end BitswapAuth
