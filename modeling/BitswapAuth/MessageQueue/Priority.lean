/-
# `BitswapAuth.MessageQueue.Priority` — which wants go first when a message is cut

The wants of a message are to go in by priority, highest first, when not all of them fit.
Sorting is skipped when an estimate says that they will all fit,

    msgSize + len(entries) * MaxEntrySize ≤ maxMessageSize

and the estimate is right for entries that are at most `MaxEntrySize` (`keepsOrder_of_le`), as
those of a SHA-256 CID with 60 bytes of auth are.  A long CID, a long auth string or a negative
priority makes an entry larger than that.  Then the message may be cut all the same, and what is
left out is a matter of the order in which a map was ranged over (`low_priority_first`).

For which wants some order goes wrong can be told from their sizes: without sorting, the lower of
two wants may come first and the higher one last, and it is left if the others fill the message
(`high_priority_first`).
-/
import BitswapAuth.MessageQueue.Drain
import Mathlib.Algebra.Group.Action.Defs
import Mathlib.Algebra.Order.BigOperators.Group.List
import Mathlib.Algebra.Order.Ring.Nat

namespace BitswapAuth

open Lib

/-! ## Sizes of entries -/

/-- A varint of `k` bytes has `7 * k` bits. -/
theorem sovMessage_le {x k : Nat} (h : x < 2 ^ (7 * k)) (hk : 0 < k) : sovMessage x ≤ k := by
  have hone : 1 < 2 ^ (7 * k) := Nat.one_lt_two_pow (by omega)
  have hlog : Nat.log2 (x ||| 1) < 7 * k := by
    rw [Nat.log2_lt (by simp)]
    exact Nat.or_lt_two_pow h hone
  rw [sovMessage]
  omega

theorem sizeBytes_le {l k : Nat} (h : l ≤ k) (hk : k < 128) : sizeBytes l ≤ k + 2 := by
  have hsov := sovMessage_le (x := l) (k := 1) (by omega) Nat.one_pos
  rw [sizeBytes]
  omega

theorem sizeOptBytes_le {l k : Nat} (h : l ≤ k) (hk : k < 128) : sizeOptBytes l ≤ k + 2 := by
  rw [sizeOptBytes]
  split
  · exact sizeBytes_le h hk
  · omega

namespace Message

theorem maxEntrySize_eq : maxEntrySize = 110 := by decide

/-- The estimate is right for a CID of a SHA-256 multihash, 60 bytes of auth and a priority
that is not negative. -/
theorem Entry.size_le_maxEntrySize {e : Entry} (hcid : e.want.cid.str.length ≤ 36)
    (hauth : (hexDecodeString e.want.auth).length ≤ 60) (hp : 0 ≤ e.priority)
    (ht : e.wantType.Known) (hc : e.cancel = false) : e.size ≤ maxEntrySize := by
  have hprio : (if e.priority ≠ 0 then 1 + sovMessage (uint64OfInt32 e.priority) else 0) ≤ 6 := by
    have hsov : sovMessage (uint64OfInt32 e.priority) ≤ 5 := by
      refine sovMessage_le ?_ (by decide)
      have hnonneg : 0 ≤ e.priority.toInt := Int32.le_iff_toInt_le.mp hp
      have hlt := e.priority.toInt_lt
      rw [uint64OfInt32, BitVec.toNat_ofInt]
      omega
    split <;> omega
  have htype : (if e.wantType.toPB ≠ 0 then 1 + sovMessage e.wantType.toPB else 0) ≤ 2 := by
    rcases ht with h | h <;> rw [h] <;> decide
  have hcancel : (if e.cancel then 2 else 0) = 0 := if_neg (Bool.eq_false_iff.mp hc)
  have hdont : (if e.sendDontHave then 2 else 0) ≤ 2 := by split <;> omega
  have hwant := sizeBytes_le hcid (by decide)
  have hauth' := sizeOptBytes_le hauth (by decide)
  rw [Entry.size, maxEntrySize_eq]
  omega

end Message

namespace MessageQueue

/-! ## Filling in order -/

/-- The wants that went in have a priority at least that of each that was left. -/
def HighFirst (entries sent : List Wantlist.Entry) : Prop :=
  ∀ e ∈ sent, ∀ e' ∈ entries, e' ∉ sent → e'.priority ≤ e.priority

instance (entries sent : List Wantlist.Entry) : Decidable (HighFirst entries sent) :=
  inferInstanceAs (Decidable (∀ e ∈ sent, ∀ e' ∈ entries, e' ∉ sent → e'.priority ≤ e.priority))

theorem highFirst_nil (entries : List Wantlist.Entry) : HighFirst entries [] :=
  fun _ he => by cases he

theorem highFirst_of_prefix {entries sent : List Wantlist.Entry}
    (h : sent <+: Wantlist.sortEntries entries) : HighFirst entries sent := by
  obtain ⟨rest, hrest⟩ := h
  have hsorted : (Wantlist.sortEntries entries).Pairwise fun a b => b.priority ≤ a.priority := by
    refine (List.pairwise_mergeSort ?_ ?_ entries).imp fun h => decide_eq_true_eq.mp h
    · intro a b c hab hbc
      exact decide_eq_true (Int32.le_trans (of_decide_eq_true hbc) (of_decide_eq_true hab))
    · intro a b
      rw [Bool.or_eq_true, decide_eq_true_iff, decide_eq_true_iff]
      exact Int32.le_total ..
  rw [← hrest, List.pairwise_append] at hsorted
  intro e he e' he' hno
  have hmem : e' ∈ sent ++ rest := by
    rw [hrest]
    exact Wantlist.mem_sortEntries.mpr he'
  exact hsorted.2.2 e he e' ((List.mem_append.mp hmem).resolve_left hno)

/-- What a want adds to the size of a message: nothing, if it is there. -/
def added (msg : Message) (size : Wantlist.Entry → Nat) (e : Wantlist.Entry) : Nat :=
  if e.want ∈ msg.wantlist then 0 else size e

/-- The wants are sorted; or no want that another one is below can be left, since the others do not
fill the message. -/
def KeepsOrder (n k : Nat) (size : Wantlist.Entry → Nat) (entries : List Wantlist.Entry) : Prop :=
  n < k + entries.length * Message.maxEntrySize ∨
    ∀ e ∈ entries, ∀ e' ∈ entries, e.priority < e'.priority →
      k + (entries.map size).sum < n + size e'

instance (n k : Nat) (size : Wantlist.Entry → Nat) (entries : List Wantlist.Entry) :
    Decidable (KeepsOrder n k size entries) :=
  inferInstanceAs (Decidable (_ ∨ ∀ e ∈ entries, ∀ e' ∈ entries, e.priority < e'.priority →
    k + (entries.map size).sum < n + size e'))

/-- The estimate is right for entries that are at most `MaxEntrySize`. -/
theorem keepsOrder_of_le {size : Wantlist.Entry → Nat} {entries : List Wantlist.Entry} (n k : Nat)
    (h : ∀ e ∈ entries, size e ≤ Message.maxEntrySize) : KeepsOrder n k size entries := by
  refine or_iff_not_imp_left.mpr fun hfit e _ e' he' _ => ?_
  obtain ⟨s, t, rfl⟩ := List.append_of_mem he'
  have hle : ((s ++ t).map size).sum ≤ ((s ++ t).map size).length • Message.maxEntrySize := by
    refine List.sum_le_card_nsmul _ _ fun x hx => ?_
    obtain ⟨e'', he'', rfl⟩ := List.mem_map.mp hx
    refine h e'' (List.mem_append.mpr ((List.mem_append.mp he'').imp_right ?_))
    exact List.mem_cons_of_mem e'
  have hperm : (s ++ e' :: t).Perm (e' :: (s ++ t)) := List.perm_middle
  have hsum := (hperm.map size).sum_nat
  rw [List.map_cons, List.sum_cons] at hsum
  rw [List.length_map, List.length_append, smul_eq_mul] at hle
  rw [List.length_append, List.length_cons, ← Nat.add_assoc, Nat.succ_mul] at hfit
  have hpos : 0 < Message.maxEntrySize := by rw [Message.maxEntrySize_eq]; decide
  omega

/-! ### One loop -/

/-- A call that adds a want to a message, and returns what it adds to the size. -/
structure Adds (add : Message → Wantlist.Entry → Message × Nat) (size : Wantlist.Entry → Nat) :
    Prop where
  size : ∀ m e, (add m e).2 = added m size e
  wants : ∀ m e w, w ∈ (add m e).1.wantlist ↔ w = e.want ∨ w ∈ m.wantlist

section Loop

variable {n : Nat} {add : Message → Wantlist.Entry → Message × Nat} {size : Wantlist.Entry → Nat}
  {m : Message} {k : Nat}

theorem Adds.sum_added (h : Adds add size) {e : Wantlist.Entry} {es : List Wantlist.Entry}
    (hne : ∀ e' ∈ es, e'.want ≠ e.want) :
    (es.map (added (add m e).1 size)).sum = (es.map (added m size)).sum := by
  refine congrArg List.sum (List.map_congr_left fun e' he' => ?_)
  have hiff := (h.wants m e e'.want).trans (or_iff_right (hne e' he'))
  rw [added, added]
  exact if_congr hiff rfl rfl

/-- A loop that is left before its end has reached the maximum. -/
theorem Adds.fill_cut (h : Adds add size) : ∀ (es : List Wantlist.Entry) (m : Message) (k : Nat),
    (es.map (·.want)).Nodup → (fill n add m k es).2.2.1 = es ∨
      n ≤ k + ((fill n add m k es).2.2.1.map (added m size)).sum
  | [], _, _, _ => .inl rfl
  | e :: es, m, k, hnd => by
      obtain ⟨hnew, hnd⟩ := List.nodup_cons.mp hnd
      rw [fill, h.size]
      dsimp only
      split
      · rename_i hfull
        exact .inr (by simpa using hfull)
      · obtain ⟨sent, k', full, heq, hpre⟩ := fill_spec n add es (add m e).1 (k + added m size e)
        have ih := h.fill_cut es (add m e).1 (k + added m size e) hnd
        rw [heq] at ih ⊢
        dsimp only at ih ⊢
        refine ih.imp (congrArg (e :: ·)) fun hle => ?_
        have hne : ∀ e' ∈ sent, e'.want ≠ e.want := fun e' he' hw =>
          hnew (List.mem_map.mpr ⟨e', hpre.subset he', hw⟩)
        rw [h.sum_added hne] at hle
        rw [List.map_cons, List.sum_cons]
        omega

/-- Where the first wants fill the message, no other goes in. -/
theorem Adds.fill_prefix (h : Adds add size) (es' : List Wantlist.Entry) :
    ∀ (es : List Wantlist.Entry) (m : Message) (k : Nat), ((es ++ es').map (·.want)).Nodup →
      es ≠ [] → n ≤ k + (es.map (added m size)).sum → (fill n add m k (es ++ es')).2.2.1 <+: es
  | [], _, _, _, hne, _ => absurd rfl hne
  | e :: es, m, k, hnd, _, hle => by
      obtain ⟨hnew, hnd⟩ := List.nodup_cons.mp hnd
      rw [List.map_cons, List.sum_cons] at hle
      rw [List.cons_append, fill, h.size]
      dsimp only
      split
      · exact ⟨es, rfl⟩
      · rename_i hfull
        have hne : ∀ e' ∈ es, e'.want ≠ e.want := fun e' he' hw =>
          hnew (List.mem_map.mpr ⟨e', List.mem_append_left es' he', hw⟩)
        refine List.cons_prefix_cons.mpr ⟨rfl, h.fill_prefix es' es _ _ hnd ?_ ?_⟩
        · rintro rfl
          rw [List.map_nil, List.sum_nil] at hle
          omega
        · rw [h.sum_added hne]
          omega

theorem mem_fill (e : Wantlist.Entry) (es : List Wantlist.Entry) :
    e ∈ (fill n add m k (e :: es)).2.2.1 := by
  rw [fill]
  dsimp only
  split <;> exact List.mem_cons_self

/-- A want that is left though a lower one went in was left with the message full. -/
theorem Adds.highFirst (h : Adds add size) {entries l : List Wantlist.Entry}
    (hnd : (entries.map (·.want)).Nodup) (hl : l.Perm entries)
    (hok : KeepsOrder n k (added m size) entries) :
    HighFirst l (fill n add m k (sortIfNeeded n k l)).2.2.1 := by
  rw [sortIfNeeded]
  split
  · obtain ⟨sent, k', full, heq, hsent⟩ := fill_spec n add (Wantlist.sortEntries l) m k
    rw [heq]
    exact highFirst_of_prefix hsent
  · rename_i hfit
    have hcut := h.fill_cut (n := n) l m k ((hl.map _).nodup_iff.mpr hnd)
    obtain ⟨sent, k', full, heq, rest, rfl⟩ := fill_spec n add l m k
    rw [heq] at hcut ⊢
    intro e he e' he' hno
    by_contra hlt
    have hin : ∀ x ∈ sent ++ rest, x ∈ entries := fun x hx => hl.mem_iff.mp hx
    have hless := hok.resolve_left (hl.length_eq ▸ hfit) e (hin e (List.mem_append_left _ he)) e'
      (hin e' he') (Int32.not_le.mp hlt)
    have hle := hcut.resolve_left fun hall => hno (hall ▸ he')
    -- the want is among the rest, which comes on top of what has filled the message
    obtain ⟨s, t, rfl⟩ := List.append_of_mem ((List.mem_append.mp he').resolve_left hno)
    have hsum := (hl.map (added m size)).sum_nat
    rw [List.map_append, List.map_append, List.map_cons, List.sum_append_nat, List.sum_append_nat,
      List.sum_cons] at hsum
    dsimp only at hle
    omega

theorem Adds.keepsOrder (h : Adds add size) {entries : List Wantlist.Entry}
    (hnd : (entries.map (·.want)).Nodup)
    (hall : ∀ l : List Wantlist.Entry, l.Perm entries →
      HighFirst l (fill n add m k (sortIfNeeded n k l)).2.2.1) :
    KeepsOrder n k (added m size) entries := by
  refine or_iff_not_imp_left.mpr fun hfit e he e' he' hlt => ?_
  by_contra hle
  obtain ⟨s, t, rfl⟩ := List.append_of_mem he'
  have hmem : e ∈ s ++ t := by
    rcases List.mem_append.mp he with he | he
    · exact List.mem_append_left t he
    · rcases List.mem_cons.mp he with rfl | he
      · exact (Int32.lt_irrefl hlt).elim
      · exact List.mem_append_right s he
  obtain ⟨a, b, hab⟩ := List.append_of_mem hmem
  -- the lower want may come first, and the higher one last
  have hperm : ((e :: (a ++ b)) ++ [e']).Perm (s ++ e' :: t) := by
    refine (List.perm_append_singleton e' _).trans ((List.Perm.cons e' ?_).trans
      List.perm_middle.symm)
    rw [hab]
    exact List.perm_middle.symm
  have hnd' := (hperm.map (·.want)).nodup_iff.mpr hnd
  have hsum := (hperm.map (added m size)).sum_nat
  rw [List.map_append, List.map_singleton, List.sum_append_nat, List.sum_singleton] at hsum
  have hpre := h.fill_prefix (n := n) [e'] (e :: (a ++ b)) m k hnd' (List.cons_ne_nil e _)
    (by omega)
  have hsort : sortIfNeeded n k ((e :: (a ++ b)) ++ [e']) = (e :: (a ++ b)) ++ [e'] :=
    if_neg (by rw [hperm.length_eq]; exact hfit)
  have hhigh := hall _ hperm
  rw [hsort] at hhigh
  refine Int32.not_lt.mpr (hhigh e (mem_fill e _) e' (by simp) fun hsent => ?_) hlt
  rw [List.map_append, List.nodup_append] at hnd'
  exact hnd'.2.2 _ (List.mem_map_of_mem (hpre.subset hsent)) _ (by simp) rfl

theorem Adds.highFirst_iff (h : Adds add size) {entries : List Wantlist.Entry}
    (hnd : (entries.map (·.want)).Nodup) :
    (∀ l : List Wantlist.Entry, l.Perm entries →
        HighFirst l (fill n add m k (sortIfNeeded n k l)).2.2.1) ↔
      KeepsOrder n k (added m size) entries :=
  ⟨h.keepsOrder hnd, fun hok _ hl => h.highFirst hnd hl hok⟩

end Loop

/-! ## The two loops over wants -/

/-- The size of a targeted want in a message. -/
def peerSize (e : Wantlist.Entry) : Nat :=
  Message.Entry.size ⟨e.want, e.priority, e.wantType, false, true⟩

/-- The size of a broadcast want in a message. -/
def bcstSize (supportsHave : Bool) (e : Wantlist.Entry) : Nat :=
  Message.Entry.size ⟨e.want, e.priority, bcstType supportsHave, false, false⟩

theorem adds_addEntry {t : Wantlist.Entry → WantType} {d : Bool} :
    Adds (fun m e => m.addEntry e.want e.priority (t e) d)
      fun e => Message.Entry.size ⟨e.want, e.priority, t e, false, d⟩ where
  size _ _ := Message.addEntry'_snd
  wants m e w := by
    rw [Message.addEntry, Message.wantlist_addEntry', AList.mem_insert]

/-- The cancels in the message, with its size and whether they have filled it. -/
def cancelsIn (mq : MessageQueue) (s : Snapshot) : Message × Nat × List Want × Bool :=
  fill mq.maxMessageSize Message.cancel mq.msg 0 s.cancels

/-- The targeted wants in the message, after the cancels. -/
def peersIn (mq : MessageQueue) (s : Snapshot) : Message × Nat × List Wantlist.Entry × Bool :=
  let c := mq.cancelsIn s
  fill mq.maxMessageSize addPeerEntry c.1 c.2.1
    (sortIfNeeded mq.maxMessageSize c.2.1 s.peerEntries)

/-- The targeted wants go in by priority, in whatever order they come: the cancels have filled the
message, or they keep the order. -/
def PeersKeepOrder (mq : MessageQueue) (s : Snapshot) : Prop :=
  (mq.cancelsIn s).2.2.2 = true ∨
    KeepsOrder mq.maxMessageSize (mq.cancelsIn s).2.1 (added (mq.cancelsIn s).1 peerSize)
      s.peerEntries

/-- The same for the broadcast wants. -/
def BcstsKeepOrder (mq : MessageQueue) (supportsHave : Bool) (s : Snapshot) : Prop :=
  (mq.cancelsIn s).2.2.2 = true ∨ (mq.peersIn s).2.2.2 = true ∨
    KeepsOrder mq.maxMessageSize (mq.peersIn s).2.1
      (added (mq.peersIn s).1 (bcstSize supportsHave)) s.bcstEntries

instance (mq : MessageQueue) (s : Snapshot) : Decidable (mq.PeersKeepOrder s) :=
  inferInstanceAs (Decidable (_ ∨ _))

/-- A want with a CID of a SHA-256 multihash, at most 60 bytes of auth and a priority that is not
negative. -/
structure Ordinary (e : Wantlist.Entry) : Prop where
  cid : e.want.cid.str.length ≤ 36
  auth : (hexDecodeString e.want.auth).length ≤ 60
  priority : 0 ≤ e.priority
  wantType : e.wantType.Known

theorem added_le (m : Message) (size : Wantlist.Entry → Nat) (e : Wantlist.Entry) :
    added m size e ≤ size e := by
  rw [added]
  split <;> omega

theorem Ordinary.peerSize_le {e : Wantlist.Entry} (h : Ordinary e) :
    peerSize e ≤ Message.maxEntrySize :=
  Message.Entry.size_le_maxEntrySize h.cid h.auth h.priority h.wantType rfl

theorem Ordinary.bcstSize_le {e : Wantlist.Entry} (h : Ordinary e) (supportsHave : Bool) :
    bcstSize supportsHave e ≤ Message.maxEntrySize := by
  refine Message.Entry.size_le_maxEntrySize h.cid h.auth h.priority ?_ rfl
  cases supportsHave
  · exact .inl rfl
  · exact .inr rfl

theorem sentPeerEntries_filled (mq : MessageQueue) (o : Orders) (sup : Bool) :
    (mq.filled o sup).sentPeerEntries =
      if (mq.cancelsIn (mq.snapshot o sup).2).2.2.2 then []
      else (mq.peersIn (mq.snapshot o sup).2).2.2.1 := by
  have hbuilt : mq.filled o sup =
      buildMessage mq.maxMessageSize mq.msg sup (mq.snapshot o sup).2 := by
    cases sup <;> rfl
  rw [hbuilt, buildMessage, cancelsIn, peersIn, cancelsIn]
  dsimp only
  split
  · rfl
  · split <;> rfl

theorem sentBcstEntries_filled (mq : MessageQueue) (o : Orders) (sup : Bool) :
    let s := (mq.snapshot o sup).2
    (mq.filled o sup).sentBcstEntries =
      if (mq.cancelsIn s).2.2.2 then []
      else if (mq.peersIn s).2.2.2 then []
      else (fill mq.maxMessageSize (addBcstEntry sup) (mq.peersIn s).1 (mq.peersIn s).2.1
        (sortIfNeeded mq.maxMessageSize (mq.peersIn s).2.1 s.bcstEntries)).2.2.1 := by
  intro s
  have hbuilt : mq.filled o sup = buildMessage mq.maxMessageSize mq.msg sup s := by
    cases sup <;> rfl
  rw [hbuilt, buildMessage, peersIn, cancelsIn]
  dsimp only
  split
  · rfl
  · split <;> rfl

/-! ### Every order -/

/-- What holds of the entries in every order of the range holds of them in every order. -/
theorem forall_entries {l : Wantlist} {P : List Wantlist.Entry → Prop} (o : RangeOrder) :
    (∀ r, P (l.entries r)) ↔ ∀ es, es.Perm (l.entries o) → P es := by
  constructor
  · intro h es hes
    obtain ⟨r, hr⟩ := RangeOrder.exists_range (hes.trans (o.range_perm l.set.values))
    exact hr ▸ h r
  · exact fun h r => h _ ((r.range_perm _).trans (o.range_perm _).symm)

theorem forall_peerEntries {mq : MessageQueue} {P : List Wantlist.Entry → Prop} (o : Orders)
    (sup : Bool) :
    (∀ r, P (mq.snapshot { o with peer := r } sup).2.peerEntries) ↔
      ∀ es, es.Perm (mq.snapshot o sup).2.peerEntries → P es := by
  cases sup with
  | true => exact forall_entries o.peer
  | false =>
      let p : Wantlist.Entry → Bool := fun e => decide (e.wantType ≠ .wantHave)
      have hall := forall_entries (l := mq.peerWants.pending) (P := fun es => P (es.filter p))
        o.peer
      refine hall.trans ⟨fun h es hes => ?_, fun h es hes => h _ (hes.filter p)⟩
      -- the want-haves that are left out may come last
      have hkept : es.filter p = es :=
        List.filter_eq_self.mpr fun e he => (List.mem_filter.mp (hes.mem_iff.mp he)).2
      have hrest := h (es ++ (mq.peerWants.pending.entries o.peer).filter (!p ·))
        ((hes.append_right _).trans (List.filter_append_perm p _))
      rw [List.filter_append, hkept, List.filter_filter] at hrest
      simpa using hrest

theorem nodup_peerEntries (mq : MessageQueue) (o : Orders) (sup : Bool) :
    ((mq.snapshot o sup).2.peerEntries.map (·.want)).Nodup := by
  cases sup with
  | true => exact Wantlist.nodup_entries
  | false => exact Wantlist.nodup_entries.sublist (List.filter_sublist.map _)

theorem highFirst_peers_iff (mq : MessageQueue) (o : Orders) (sup : Bool) :
    (∀ r, HighFirst (mq.snapshot { o with peer := r } sup).2.peerEntries
        (mq.filled { o with peer := r } sup).sentPeerEntries) ↔
      mq.PeersKeepOrder (mq.snapshot o sup).2 := by
  have hcancels : ∀ r, mq.cancelsIn (mq.snapshot { o with peer := r } sup).2 =
      mq.cancelsIn (mq.snapshot o sup).2 := by
    intro r
    cases sup <;> rfl
  have hadds : Adds addPeerEntry peerSize := adds_addEntry
  simp only [sentPeerEntries_filled, peersIn, hcancels, PeersKeepOrder]
  cases (mq.cancelsIn (mq.snapshot o sup).2).2.2.2 with
  | true => exact iff_of_true (fun r => highFirst_nil _) (.inl rfl)
  | false =>
      rw [or_iff_right Bool.false_ne_true]
      refine Iff.trans (forall_peerEntries (P := fun es => HighFirst es (fill mq.maxMessageSize
        addPeerEntry _ _ (sortIfNeeded mq.maxMessageSize _ es)).2.2.1) o sup) ?_
      exact hadds.highFirst_iff (mq.nodup_peerEntries o sup)

theorem highFirst_bcsts_iff (mq : MessageQueue) (o : Orders) (sup : Bool) :
    (∀ r, HighFirst (mq.snapshot { o with bcst := r } sup).2.bcstEntries
        (mq.filled { o with bcst := r } sup).sentBcstEntries) ↔
      mq.BcstsKeepOrder sup (mq.snapshot o sup).2 := by
  have hcancels : ∀ r, mq.cancelsIn (mq.snapshot { o with bcst := r } sup).2 =
      mq.cancelsIn (mq.snapshot o sup).2 := by
    intro r
    cases sup <;> rfl
  have hpeers : ∀ r, mq.peersIn (mq.snapshot { o with bcst := r } sup).2 =
      mq.peersIn (mq.snapshot o sup).2 := by
    intro r
    cases sup <;> rfl
  have hentries : ∀ o : Orders, (mq.snapshot o sup).2.bcstEntries =
      mq.bcstWants.pending.entries o.bcst := by
    intro o
    cases sup <;> rfl
  have hadds : Adds (addBcstEntry sup) (bcstSize sup) := adds_addEntry
  simp only [sentBcstEntries_filled, hcancels, hpeers, BcstsKeepOrder, hentries]
  cases (mq.cancelsIn (mq.snapshot o sup).2).2.2.2 with
  | true => exact iff_of_true (fun r => highFirst_nil _) (.inl rfl)
  | false =>
      rw [or_iff_right Bool.false_ne_true]
      cases (mq.peersIn (mq.snapshot o sup).2).2.2.2 with
      | true => exact iff_of_true (fun r => highFirst_nil _) (.inl rfl)
      | false =>
          rw [or_iff_right Bool.false_ne_true]
          refine Iff.trans (forall_entries (P := fun es => HighFirst es (fill mq.maxMessageSize
            (addBcstEntry sup) _ _ (sortIfNeeded mq.maxMessageSize _ es)).2.2.1) o.bcst) ?_
          exact hadds.highFirst_iff Wantlist.nodup_entries

/-- **The high priorities go first**, in any state of a queue and with any maximum size, for every
order in which the wants come, just when the message is full before them, or they are sorted, or
the others never fill it without a want that some of them are below.  So it is with ordinary
wants. -/
theorem high_priority_first (mq : MessageQueue) (o : Orders) (supportsHave : Bool) :
    let s := (mq.snapshot o supportsHave).2
    ((∀ r, HighFirst (mq.snapshot { o with peer := r } supportsHave).2.peerEntries
        (mq.filled { o with peer := r } supportsHave).sentPeerEntries) ↔ mq.PeersKeepOrder s) ∧
      ((∀ r, HighFirst (mq.snapshot { o with bcst := r } supportsHave).2.bcstEntries
        (mq.filled { o with bcst := r } supportsHave).sentBcstEntries) ↔
          mq.BcstsKeepOrder supportsHave s) ∧
      ((∀ e ∈ s.peerEntries, Ordinary e) → mq.PeersKeepOrder s) ∧
      ((∀ e ∈ s.bcstEntries, Ordinary e) → mq.BcstsKeepOrder supportsHave s) := by
  intro s
  refine ⟨mq.highFirst_peers_iff o supportsHave, mq.highFirst_bcsts_iff o supportsHave, ?_, ?_⟩
  · intro h
    exact .inr (keepsOrder_of_le _ _ fun e he => (added_le _ _ e).trans (h e he).peerSize_le)
  · intro h
    refine .inr (.inr (keepsOrder_of_le _ _ fun e he => ?_))
    exact (added_le _ _ e).trans ((h e he).bcstSize_le supportsHave)

/-- Two targeted wants that are taken to fit, the first with a CID of 220 bytes: it has the higher
priority, and if it comes last it still goes in. -/
theorem high_priority_first_of_two :
    let w : Want := ⟨⟨List.replicate 220 1⟩, []⟩
    let w' : Want := ⟨⟨[2]⟩, []⟩
    let o : Orders := ⟨.stored, .stored, .stored⟩
    let mq := run step (new 220) [.add (.addWants [w, w'] [])]
    let s := (mq.snapshot o true).2
    s.peerEntries.length * Message.maxEntrySize ≤ mq.maxMessageSize ∧
      (mq.filled o true).sentPeerEntries.length = 2 ∧
      ∀ r, HighFirst (mq.snapshot { o with peer := r } true).2.peerEntries
        (mq.filled { o with peer := r } true).sentPeerEntries := by
  intro w w' o mq s
  refine ⟨by decide +kernel, by decide +kernel, ?_⟩
  exact (high_priority_first mq o true).1.mpr (by decide +kernel)

/-- Two targeted wants, the second with a CID of 220 bytes.  They are taken to fit into 220
bytes, so they are not sorted, and the range begins with the second: the message is cut
after it, and the want with the higher priority is left. -/
theorem low_priority_first :
    let w : Want := ⟨⟨[1]⟩, []⟩
    let w' : Want := ⟨⟨List.replicate 220 2⟩, []⟩
    let o : Orders := ⟨.stored, .stored, .stored⟩
    let mq := run step (new 220) [.add (.addWants [w, w'] [])]
    let s := (mq.snapshot o true).2
    let b := mq.filled o true
    b.sentPeerEntries.map (·.want) = [w'] ∧ ¬ HighFirst s.peerEntries b.sentPeerEntries ∧
      w ∈ (mq.extract o true).1.peerWants.pending := by
  decide +kernel

end MessageQueue

end BitswapAuth
