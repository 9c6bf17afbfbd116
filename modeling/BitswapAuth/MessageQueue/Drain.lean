/-
# `BitswapAuth.MessageQueue.Drain` — extracting until nothing is pending

A message that reaches the maximum size is cut, and what did not go in waits for the next
one.  Extractions one after another, with no call in between, empty the queue: each takes
at least one want or cancel out of what is pending (`pendingWorkCount_extract_lt`), and
`Drained` says what the messages together have in them.

Everything is read off one statement about one extraction, `Drawn`: what went into the
message left the pending lists, nothing else did but the want-haves of a peer that does not
know them, and the message has what went in,

    a cancel                      as a cancel
    a targeted want               with its own type
    a broadcast want, alone       as a want-have, or a want-block for such a peer
    a broadcast want, targeted    with the type of the targeted want
-/
import BitswapAuth.MessageQueue.Window

namespace BitswapAuth

open Lib Wantlist

/-! ## The types the queue is asked with -/

/-- One of the two types that have a name. -/
def WantType.Known (t : WantType) : Prop := t = .wantBlock ∨ t = .wantHave

namespace MessageQueue

/-- The targeted wants are want-blocks and want-haves. -/
structure Typed (mq : MessageQueue) : Prop where
  pending : mq.peerWants.pending.OfTypes WantType.Known
  sent : mq.peerWants.sent.OfTypes WantType.Known

section Typed

variable {mq : MessageQueue}

theorem typed_new (n : Nat) : (new n).Typed := ⟨ofTypes_new, ofTypes_new⟩

theorem typed_addWant {t : WantType} (ht : t.Known) (mq : MessageQueue) (c : Want)
    (h : mq.Typed) : (mq.addWant t c).Typed :=
  ⟨h.pending.add ht, h.sent⟩

theorem typed_addBroadcastWantHave (mq : MessageQueue) (c : Want) (h : mq.Typed) :
    (mq.addBroadcastWantHave c).Typed :=
  ⟨h.pending, h.sent⟩

theorem typed_addCancel (mq : MessageQueue) (c : Want) (h : mq.Typed) : (mq.addCancel c).Typed :=
  ⟨h.pending.remove, h.sent.remove⟩

theorem typed_add (mq : MessageQueue) (a : Add) (h : mq.Typed) : (mq.add a).Typed := by
  cases a with
  | addWants bs hs =>
      exact run_invariant (typed_addWant (.inl rfl)) bs
        (run_invariant (typed_addWant (.inr rfl)) hs h)
  | addBroadcastWantHaves hs => exact run_invariant typed_addBroadcastWantHave hs h
  | addCancels ks => exact run_invariant typed_addCancel ks h

theorem typed_transferRebroadcastWants (h : mq.Typed) (ob op : RangeOrder) :
    (mq.transferRebroadcastWants ob op).Typed := by
  rw [transferRebroadcastWants]
  split
  · exact h
  · exact ⟨h.pending.absorb h.sent, h.sent⟩

theorem typed_snapshot (h : mq.Typed) (o : Orders) (sup : Bool) :
    (mq.snapshot o sup).1.Typed := by
  cases sup with
  | true => exact h
  | false =>
      have hdrop : ∀ (r : RecallWantlist) e,
          r.pending.OfTypes WantType.Known ∧ r.sent.OfTypes WantType.Known →
            (dropWantHave r e).pending.OfTypes WantType.Known ∧
              (dropWantHave r e).sent.OfTypes WantType.Known := by
        rintro r e ⟨hp, hs⟩
        rw [dropWantHave]
        split
        · exact ⟨hp.removeType, hs.removeType⟩
        · exact ⟨hp, hs⟩
      obtain ⟨hp, hs⟩ := run_invariant hdrop (mq.peerWants.pending.entries o.peer)
        ⟨h.pending, h.sent⟩
      exact ⟨hp, hs⟩

theorem typed_extract (h : mq.Typed) (o : Orders) (sup : Bool) (window : List Add) :
    (mq.step (.extract o sup window)).Typed := by
  have hw : (mq.reopened o sup window).1.Typed :=
    run_invariant typed_add window (typed_snapshot h o sup)
  obtain ⟨cs, ps, bs, -, ⟨k, hps⟩, -, heq⟩ := buildMessage_eq
    (mq.snapshot o sup).1.maxMessageSize (mq.snapshot o sup).1.msg sup (mq.snapshot o sup).2
  have hes : ∀ e ∈ (mq.reopened o sup window).2.sentPeerEntries, e.wantType.Known := by
    intro e he
    have hmem : e ∈ ps := by
      rw [reopened, heq] at he
      exact he
    have hcopy := (snapshot_spec mq o sup).peer e
      ((sortIfNeeded_perm _ k _).subset (hps.subset hmem))
    exact h.pending e.want e hcopy.1
  obtain ⟨hp, hs⟩ := ofTypes_foldl_finishEntry (T := WantType.Known) _
    (mq.reopened o sup window).1.peerWants (mq.reopened o sup window).2.msg hes hw.pending hw.sent
  exact ⟨hp, hs⟩

theorem typed_step (mq : MessageQueue) (a : Step) (h : mq.Typed) : (mq.step a).Typed := by
  cases a with
  | add a => exact typed_add mq a h
  | rebroadcast ob op => exact typed_transferRebroadcastWants h ob op
  | extract o sup window => exact typed_extract h o sup window

end Typed

end MessageQueue

/-! ## The types in a message -/

namespace Message

variable {m : Message} {c w : Want} {p : Int32} {t : WantType} {d : Bool}

/-- The type of the entry for a want. -/
def typeOf (m : Message) (w : Want) : Option WantType := (m.wantlist.lookup w).map Entry.wantType

theorem typeOf_eq_none_iff : m.typeOf w = none ↔ m.flag w = none := by
  rw [typeOf, flag, Option.map_eq_none_iff, Option.map_eq_none_iff]

theorem holdsBlock_iff_typeOf : m.HoldsBlock w ↔ m.typeOf w = some .wantBlock :=
  Option.map_eq_some_iff.symm

theorem typeOf_addEntry_of_ne (h : w ≠ c) : (m.addEntry c p t d).1.typeOf w = m.typeOf w := by
  rw [typeOf, addEntry, addEntry']
  split
  · rw [lookup_setEntry, if_neg h]
    rfl
  · rw [lookup_setEntry, if_neg h]
    rfl

theorem typeOf_addEntry_of_none (h : m.typeOf c = none) :
    (m.addEntry c p t d).1.typeOf c = some t := by
  have hc : m.wantlist.lookup c = none := Option.map_eq_none_iff.mp h
  rw [typeOf, addEntry, addEntry']
  split
  · rename_i e he
    rw [hc] at he
    cases he
  · rw [lookup_setEntry, if_pos rfl]
    rfl

/-- An entry keeps its type, unless it is a want-have that is asked for as a want-block. -/
theorem typeOf_addEntry_of_some {t' : WantType} (h : m.typeOf c = some t')
    (hno : ¬ (t = .wantBlock ∧ t' = .wantHave)) :
    (m.addEntry c p t d).1.typeOf c = some t' := by
  obtain ⟨e, he, rfl⟩ := Option.map_eq_some_iff.mp h
  rw [typeOf, addEntry, addEntry']
  split
  · rename_i e' he'
    obtain rfl : e = e' := Option.some.inj (he.symm.trans he')
    rw [lookup_setEntry, if_pos rfl]
    exact congrArg some (if_neg hno)
  · rename_i he'
    rw [he] at he'
    cases he'

end Message

namespace MessageQueue

/-- The type a broadcast want goes into a message with. -/
def bcstType (supportsHave : Bool) : WantType := if supportsHave then .wantHave else .wantBlock

/-- The types the wants have in the message they went into. -/
structure Types (sup : Bool) (b : Built) : Prop where
  peer : ∀ e ∈ b.sentPeerEntries, b.msg.typeOf e.want = some e.wantType
  bcst : ∀ e ∈ b.sentBcstEntries, e.want ∉ b.sentPeerEntries.map (·.want) →
    b.msg.typeOf e.want = some (bcstType sup)

/-- The message that a copy is made into, if it has no want-haves for a peer that does not
know them. -/
theorem Copied.types {s : Snapshot} (h : Copied s) (n : Nat) {msg : Message} {sup : Bool}
    (hmsg : ∀ w, msg.flag w = none)
    (hsup : ∀ e ∈ s.peerEntries, ¬ (bcstType sup = .wantBlock ∧ e.wantType = .wantHave)) :
    Types sup (buildMessage n msg sup s) := by
  have hprep := h.prepared n sup hmsg
  have hfrom := buildMessage_spec n sup s hmsg
  obtain ⟨cs, ps, bs, -, -, -, heq⟩ := buildMessage_eq n msg sup s
  rw [heq] at hprep hfrom ⊢
  have hclear : ∀ w, w ∉ cs → (cs.foldl (fun m c => (m.cancel c).1) msg).typeOf w = none := by
    intro w hw
    rw [Message.typeOf_eq_none_iff, Message.flag_foldl_cancel, if_neg hw, hmsg]
  have hp : ∀ w (m : Message) (e : Wantlist.Entry), e.want ≠ w →
      (addPeerEntry m e).1.typeOf w = m.typeOf w :=
    fun w m e hne => Message.typeOf_addEntry_of_ne (Ne.symm hne)
  have hb : ∀ w (m : Message) (e : Wantlist.Entry), e.want ≠ w →
      (addBcstEntry sup m e).1.typeOf w = m.typeOf w :=
    fun w m e hne => Message.typeOf_addEntry_of_ne (Ne.symm hne)
  set m₁ := cs.foldl (fun m c => (m.cancel c).1) msg
  set m₂ := ps.foldl (fun m e => (addPeerEntry m e).1) m₁ with hm₂
  have hpeer : ∀ e ∈ ps, m₂.typeOf e.want = some e.wantType := by
    intro e he
    obtain ⟨m', hm', heq'⟩ := foldl_own (fun m => m.typeOf e.want) (·.want) hprep.peer he
      (hp e.want) m₁
    rw [hm₂, heq']
    exact Message.typeOf_addEntry_of_none (hm'.trans (hclear _ (hprep.notMem_cancels (.inl he))))
  refine ⟨fun e he => ?_, fun e he hno => ?_⟩
  · by_cases hin : e.want ∈ bs.map (·.want)
    · obtain ⟨e', he', hw⟩ := List.mem_map.mp hin
      obtain ⟨m', hm', heq'⟩ := foldl_own (fun m => m.typeOf e'.want) (·.want) hprep.bcst he'
        (hb e'.want) m₂
      dsimp only at hm' heq' ⊢
      rw [← hw, heq']
      refine Message.typeOf_addEntry_of_some ?_ (hsup e (hfrom.peer e he))
      rw [hm', hw, hpeer e he]
    · exact (foldl_elsewhere (fun m => m.typeOf e.want) (·.want) (hb e.want) bs m₂ hin).trans
        (hpeer e he)
  · obtain ⟨m', hm', heq'⟩ := foldl_own (fun m => m.typeOf e.want) (·.want) hprep.bcst he
      (hb e.want) m₂
    dsimp only at hm' heq' ⊢
    rw [heq']
    refine Message.typeOf_addEntry_of_none (hm'.trans ?_)
    rw [hm₂]
    exact (foldl_elsewhere (fun m => m.typeOf e.want) (·.want) (hp e.want) ps m₁ hno).trans
      (hclear _ (hprep.notMem_cancels (.inr he)))

end MessageQueue

/-! ## Marking everything as sent -/

namespace RecallWantlist

variable {r : RecallWantlist} {e : Wantlist.Entry}

/-- What is pending as it was copied moves to the sent list. -/
theorem markSent_of_lookup (h : r.pending.set.lookup e.want = some e) :
    r.markSent e = ({ r with pending := r.pending.delete e.want
                             sent := (r.sent.add e.want e.priority e.wantType).1 }, true) := by
  have hno : ¬ (e.wantType = .wantBlock ∧ e.wantType = .wantHave) := by
    rintro ⟨hb, hh⟩
    rw [hb] at hh
    cases hh
  have hrem : r.pending.removeType e.want e.wantType = (r.pending.delete e.want, true) := by
    rw [Wantlist.removeType, h]
    exact if_neg hno
  rw [markSent, hrem]

theorem pends_of_lookup (h : r.pending.set.lookup e.want = some e) : r.Pends e := by
  rw [← snd_markSent, markSent_of_lookup h]

/-- What is seen of a want in the two lists. -/
def seen (r : RecallWantlist) (w : Want) : Option Wantlist.Entry × Option Wantlist.Entry :=
  (r.pending.set.lookup w, r.sent.set.lookup w)

theorem seen_markSent_of_ne {w : Want} (h : e.want ≠ w) : (r.markSent e).1.seen w = r.seen w := by
  rw [markSent]
  split
  · rfl
  · rename_i pending hrem
    have hp : pending = (r.pending.removeType e.want e.wantType).1 := by rw [hrem]
    rw [seen, hp, lookup_removeType_of_ne (Ne.symm h), lookup_add,
      if_neg (Ne.symm h)]
    rfl

end RecallWantlist

namespace MessageQueue

theorem seen_finishEntry_of_ne {w : Want} (s : RecallWantlist × Message) (e : Wantlist.Entry)
    (h : e.want ≠ w) : (finishEntry s e).1.seen w = s.1.seen w := by
  have hmark := s.1.seen_markSent_of_ne h
  rw [finishEntry]
  split
  · rename_i heq
    rw [heq] at hmark
    exact hmark
  · rfl

/-- The finishing loop over entries that are pending as they were copied. -/
theorem seen_foldl_finishEntry {es : List Wantlist.Entry} {r : RecallWantlist}
    (hnd : (es.map (·.want)).Nodup) (hes : ∀ e ∈ es, r.pending.set.lookup e.want = some e)
    (m : Message) :
    (∀ w, w ∉ es.map (·.want) → (es.foldl finishEntry (r, m)).1.seen w = r.seen w) ∧
      ∀ e ∈ es, (es.foldl finishEntry (r, m)).1.seen e.want =
        (none, some (Wantlist.merged (r.sent.set.lookup e.want) e)) := by
  refine ⟨fun w hw => ?_, fun e he => ?_⟩
  · exact foldl_elsewhere (fun s : RecallWantlist × Message => s.1.seen w) (·.want)
      (fun s e h => seen_finishEntry_of_ne s e h) es (r, m) hw
  · obtain ⟨s, hs, heq⟩ := foldl_own (fun s : RecallWantlist × Message => s.1.seen e.want)
      (·.want) hnd he (fun s e' h => seen_finishEntry_of_ne s e' h) (r, m)
    dsimp only at hs heq
    obtain ⟨hp, ht⟩ := Prod.mk.inj hs
    rw [heq, finishEntry, RecallWantlist.markSent_of_lookup (hp.trans (hes e he)),
      RecallWantlist.seen]
    dsimp only
    rw [lookup_add, if_pos rfl, ht]
    exact congrArg (·, _) (AList.lookup_erase _ _)

/-! ## One extraction -/

/-- What is asked for of a targeted want: of a want-have nothing, if the peer does not know
HAVE. -/
def offered (supportsHave : Bool) (e : Option Wantlist.Entry) : Option Wantlist.Entry :=
  if supportsHave then e else Wantlist.onlyBlock e

theorem offered_eq_some {sup : Bool} {x : Option Wantlist.Entry} {e : Wantlist.Entry} :
    offered sup x = some e ↔ x = some e ∧ (sup = false → e.wantType = .wantBlock) := by
  cases sup with
  | true => simp [offered]
  | false => simp [offered, onlyBlock_eq_some]

section Extraction

variable {mq : MessageQueue} {e : Wantlist.Entry}

theorem lookup_pending_snapshot (h : mq.Typed) (o : Orders) (sup : Bool) (w : Want) :
    (mq.snapshot o sup).1.peerWants.pending.set.lookup w =
      offered sup (mq.peerWants.pending.set.lookup w) := by
  cases sup with
  | true => rfl
  | false =>
      refine (lookup_foldl_dropWantHave (mq.peerWants.pending.entries o.peer) _ w).1.trans ?_
      split
      · rfl
      · rename_i hno
        cases hw : mq.peerWants.pending.set.lookup w with
        | none => rfl
        | some e =>
            have hkey := mq.peerWants.pending.keyed w e hw
            rcases h.pending w e hw with ht | ht
            · exact (offered_eq_some.mpr ⟨rfl, fun _ => ht⟩).symm
            · exact absurd ⟨e, mem_entries.mpr (hkey ▸ hw), hkey, ht⟩ hno

theorem mem_peerEntries_snapshot (h : mq.Typed) (o : Orders) (sup : Bool) :
    e ∈ (mq.snapshot o sup).2.peerEntries ↔
      offered sup (mq.peerWants.pending.set.lookup e.want) = some e := by
  cases sup with
  | true => exact mem_entries
  | false =>
      refine (List.mem_filter.trans ?_).trans offered_eq_some.symm
      rw [mem_entries, decide_eq_true_iff]
      refine and_congr_right fun he => ?_
      constructor
      · exact fun hne _ => (h.pending _ e he).resolve_right hne
      · intro hb ht
        rw [hb rfl] at ht
        cases ht

theorem mem_cancels_snapshot (mq : MessageQueue) (o : Orders) (sup : Bool) (w : Want) :
    w ∈ (mq.snapshot o sup).2.cancels ↔ w ∈ mq.cancels := by
  cases sup <;> exact RangeOrder.mem_range.trans AList.mem_keys

/-- What an extraction fills its message with. -/
def filled (mq : MessageQueue) (o : Orders) (supportsHave : Bool) : Built :=
  let s := mq.snapshot o supportsHave
  buildMessage s.1.maxMessageSize s.1.msg supportsHave s.2

/-- Everything that goes in was pending. -/
structure FromPending (mq : MessageQueue) (sup : Bool) (b : Built) : Prop where
  cancel : ∀ w ∈ b.sentCancels, w ∈ mq.cancels
  peer : ∀ e ∈ b.sentPeerEntries, offered sup (mq.peerWants.pending.set.lookup e.want) = some e
  bcst : ∀ e ∈ b.sentBcstEntries, mq.bcstWants.pending.set.lookup e.want = some e

/-- **One extraction**, with no call while the message is filled. -/
structure Drawn (mq : MessageQueue) (sup : Bool) (b : Built) (r : MessageQueue × Message) : Prop
    extends FromPending mq sup b where
  cancels : ∀ w, w ∈ r.1.cancels ↔ w ∈ mq.cancels ∧ w ∉ b.sentCancels
  peerWants : ∀ w, r.1.peerWants.pending.set.lookup w =
    if w ∈ b.sentPeerEntries.map (·.want) then none
    else offered sup (mq.peerWants.pending.set.lookup w)
  bcstWants : ∀ w, r.1.bcstWants.pending.set.lookup w =
    if w ∈ b.sentBcstEntries.map (·.want) then none else mq.bcstWants.pending.set.lookup w
  tells : ∀ w, r.2.flag w = some true ↔ w ∈ b.sentCancels
  asks : ∀ w, r.2.flag w = some false ↔
    w ∈ b.sentPeerEntries.map (·.want) ∨ w ∈ b.sentBcstEntries.map (·.want)
  targeted : ∀ e ∈ b.sentPeerEntries, r.2.typeOf e.want = some e.wantType
  broadcast : ∀ e ∈ b.sentBcstEntries, e.want ∉ b.sentPeerEntries.map (·.want) →
    r.2.typeOf e.want = some (bcstType sup)

/-- The pending list after the loop that marks some of its entries as sent. -/
theorem lookup_pending_foldl_finishEntry {es : List Wantlist.Entry} {r : RecallWantlist}
    (hnd : (es.map (·.want)).Nodup) (hes : ∀ e ∈ es, r.pending.set.lookup e.want = some e)
    (m : Message) (w : Want) :
    (es.foldl finishEntry (r, m)).1.pending.set.lookup w =
      if w ∈ es.map (·.want) then none else r.pending.set.lookup w := by
  obtain ⟨hother, hown⟩ := seen_foldl_finishEntry hnd hes m
  split
  · rename_i hw
    obtain ⟨e, he, rfl⟩ := List.mem_map.mp hw
    exact congrArg Prod.fst (hown e he)
  · rename_i hw
    exact congrArg Prod.fst (hother w hw)

theorem clear_snapshot (h : mq.Steady) (o : Orders) (sup : Bool) (w : Want) :
    (mq.snapshot o sup).1.msg.flag w = none := by
  rw [(snapshot_spec mq o sup).msg]
  exact h.clear w

theorem prepared_filled (h : mq.Steady) (o : Orders) (sup : Bool) : Prepared (mq.filled o sup) :=
  (copied_snapshot h.toOrderly o sup).prepared _ sup (clear_snapshot h o sup)

theorem builtFrom_filled (h : mq.Steady) (o : Orders) (sup : Bool) :
    BuiltFrom (mq.snapshot o sup).2 (mq.filled o sup) :=
  buildMessage_spec _ sup _ (clear_snapshot h o sup)

theorem fromPending_filled (h : mq.Steady) (ht : mq.Typed) (o : Orders) (sup : Bool) :
    FromPending mq sup (mq.filled o sup) := by
  have hfrom := builtFrom_filled h o sup
  refine ⟨fun w hw => ?_, fun e he => ?_, fun e he => ?_⟩
  · exact (mem_cancels_snapshot mq o sup w).mp (hfrom.cancels.subset hw)
  · exact (mem_peerEntries_snapshot ht o sup).mp (hfrom.peer e he)
  · have hcopied := hfrom.bcst e he
    rw [bcstEntries_snapshot] at hcopied
    exact mem_entries.mp hcopied

/-- With no call in between, what went in is still pending as it was copied. -/
theorem FromPending.snapshot {sup : Bool} {b : Built} (hb : FromPending mq sup b) (ht : mq.Typed)
    (o : Orders) :
    (∀ e ∈ b.sentPeerEntries,
        (mq.snapshot o sup).1.peerWants.pending.set.lookup e.want = some e) ∧
      ∀ e ∈ b.sentBcstEntries,
        (mq.snapshot o sup).1.bcstWants.pending.set.lookup e.want = some e := by
  refine ⟨fun e he => (lookup_pending_snapshot ht o sup e.want).trans (hb.peer e he), ?_⟩
  rw [(snapshot_spec mq o sup).bcstWants]
  exact hb.bcst

theorem lookup_extract (h : mq.Steady) (ht : mq.Typed) (o : Orders) (sup : Bool) (w : Want) :
    (mq.extract o sup).2.wantlist.lookup w = (mq.filled o sup).msg.wantlist.lookup w := by
  have hb := fromPending_filled h ht o sup
  obtain ⟨hpeer, hbcst⟩ := hb.snapshot ht o
  refine (lookup_finish (prepared_filled h o sup) (mq.snapshot o sup).1 w).trans (if_neg ?_)
  rintro (⟨hw, hno⟩ | ⟨e, he, -, hno⟩ | ⟨e, he, -, hno⟩)
  · rw [(snapshot_spec mq o sup).cancels] at hno
    exact hno (hb.cancel w hw)
  · exact hno (RecallWantlist.pends_of_lookup (hbcst e he))
  · exact hno (RecallWantlist.pends_of_lookup (hpeer e he))

theorem BuiltFrom.flag_eq_true {s : Snapshot} {b : Built} (hb : BuiltFrom s b) (w : Want) :
    b.msg.flag w = some true ↔ w ∈ b.sentCancels := by
  rw [hb.flag]
  split
  · rename_i hw
    exact iff_of_true rfl hw
  · rename_i hw
    refine iff_of_false ?_ hw
    split <;> simp

theorem BuiltFrom.flag_eq_false {s : Snapshot} {b : Built} (hb : BuiltFrom s b) (hp : Prepared b)
    (w : Want) : b.msg.flag w = some false ↔
      w ∈ b.sentPeerEntries.map (·.want) ∨ w ∈ b.sentBcstEntries.map (·.want) := by
  rw [hb.flag]
  split
  · rename_i hw
    refine iff_of_false (by simp) ?_
    rintro (hin | hin)
    · obtain ⟨e, he, rfl⟩ := List.mem_map.mp hin
      exact hp.notMem_cancels (.inl he) hw
    · obtain ⟨e, he, rfl⟩ := List.mem_map.mp hin
      exact hp.notMem_cancels (.inr he) hw
  · split
    · rename_i hin
      exact iff_of_true rfl hin
    · rename_i hin
      exact iff_of_false (by simp) hin

theorem types_filled (h : mq.Steady) (o : Orders) (sup : Bool) : Types sup (mq.filled o sup) := by
  refine (copied_snapshot h.toOrderly o sup).types _ (clear_snapshot h o sup) fun e he hno => ?_
  obtain ⟨hb, hh⟩ := hno
  cases sup with
  | true => cases hb
  | false => exact ((snapshot_spec mq o false).peer e he).2 ⟨rfl, hh⟩

theorem drawn_extract (h : mq.Steady) (ht : mq.Typed) (o : Orders) (sup : Bool) :
    Drawn mq sup (mq.filled o sup) (mq.extract o sup) := by
  have hs := snapshot_spec mq o sup
  have hprep := prepared_filled h o sup
  have hfrom := builtFrom_filled h o sup
  have hpend := fromPending_filled h ht o sup
  have htypes := types_filled h o sup
  obtain ⟨hpeer, hbcst⟩ := hpend.snapshot ht o
  have hkept := lookup_extract h ht o sup
  have htype : ∀ w, (mq.extract o sup).2.typeOf w = (mq.filled o sup).msg.typeOf w :=
    fun w => congrArg (Option.map Message.Entry.wantType) (hkept w)
  have hflag : ∀ w, (mq.extract o sup).2.flag w = (mq.filled o sup).msg.flag w :=
    fun w => congrArg (Option.map Message.Entry.cancel) (hkept w)
  refine ⟨hpend, fun w => ?_, fun w => ?_, fun w => ?_,
    fun w => (hflag w) ▸ hfrom.flag_eq_true w, fun w => (hflag w) ▸ hfrom.flag_eq_false hprep w,
    fun e he => (htype e.want).trans (htypes.peer e he),
    fun e he hno => (htype e.want).trans (htypes.bcst e he hno)⟩
  · have hset := (finish_spec (mq.snapshot o sup).1 (mq.filled o sup) hprep.cancels fun c hc => by
      rw [hs.cancels]; exact hpend.cancel c hc).cancels w
    rw [hs.cancels] at hset
    exact hset
  · refine (lookup_pending_foldl_finishEntry hprep.peer hpeer _ w).trans ?_
    rw [lookup_pending_snapshot ht]
  · refine (lookup_pending_foldl_finishEntry hprep.bcst hbcst _ w).trans ?_
    rw [hs.bcstWants]

end Extraction

/-! ## Progress -/

/-- A filling loop over some items adds one of them. -/
theorem fill_ne_nil {α : Type} {n : Nat} {add : Message → α → Message × Nat} {m : Message}
    {k : Nat} {xs : List α} (h : xs ≠ []) : (fill n add m k xs).2.2.1 ≠ [] := by
  cases xs with
  | nil => exact absurd rfl h
  | cons x xs =>
      rw [fill]
      split
      · exact List.cons_ne_nil _ _
      · exact List.cons_ne_nil _ _

theorem fill_ne_nil_of_full {α : Type} {n : Nat} {add : Message → α → Message × Nat}
    {m : Message} {k : Nat} {xs : List α} (h : (fill n add m k xs).2.2.2 = true) :
    (fill n add m k xs).2.2.1 ≠ [] := by
  cases xs with
  | nil => cases h
  | cons x xs => exact fill_ne_nil (List.cons_ne_nil x xs)

/-- Whatever the maximum size is, something goes into the message if there is anything. -/
theorem buildMessage_ne_nil (n : Nat) (msg : Message) (sup : Bool) {s : Snapshot}
    (h : s.cancels ≠ [] ∨ s.peerEntries ≠ [] ∨ s.bcstEntries ≠ []) :
    (buildMessage n msg sup s).sentCancels ≠ [] ∨ (buildMessage n msg sup s).sentPeerEntries ≠ [] ∨
      (buildMessage n msg sup s).sentBcstEntries ≠ [] := by
  have hsort : ∀ k {es : List Wantlist.Entry}, es ≠ [] → sortIfNeeded n k es ≠ [] :=
    fun k es hes hnil => hes (List.perm_nil.mp (hnil ▸ (sortIfNeeded_perm n k es).symm))
  rcases buildMessage_cases n msg sup s with ⟨hfull, heq⟩ | ⟨hfull, heq⟩ | heq
  · rw [heq]
    exact .inl (fill_ne_nil_of_full hfull)
  · rw [heq]
    exact .inr (.inl (fill_ne_nil_of_full hfull))
  · rw [heq]
    rcases h with hc | hp | hb
    · exact .inl (fill_ne_nil hc)
    · exact .inr (.inl (fill_ne_nil (hsort _ hp)))
    · exact .inr (.inr (fill_ne_nil (hsort _ hb)))

section Progress

variable {mq : MessageQueue}

/-- With work pending, the copy is not empty, if every targeted want is offered. -/
theorem snapshot_ne_nil (ht : mq.Typed) (o : Orders) (sup : Bool) (hwork : mq.pendingWorkCount ≠ 0)
    (hoffered : ∀ w ∈ mq.peerWants.pending,
      offered sup (mq.peerWants.pending.set.lookup w) ≠ none) :
    (mq.snapshot o sup).2.cancels ≠ [] ∨ (mq.snapshot o sup).2.peerEntries ≠ [] ∨
      (mq.snapshot o sup).2.bcstEntries ≠ [] := by
  by_contra hno
  simp only [not_or, not_not] at hno
  obtain ⟨hc, hp, hb⟩ := hno
  refine hwork (pendingWorkCount_eq_zero.mpr ⟨fun w hw => ?_, fun w hw => ?_, fun w hw => ?_⟩)
  · obtain ⟨e, he, -⟩ := exists_mem_entries (o := o.bcst).mpr hw
    rw [bcstEntries_snapshot] at hb
    rw [hb] at he
    cases he
  · obtain ⟨e, hoff⟩ := Option.ne_none_iff_exists'.mp (hoffered w hw)
    have hkey := mq.peerWants.pending.keyed w e (offered_eq_some.mp hoff).1
    have he : e ∈ (mq.snapshot o sup).2.peerEntries :=
      (mem_peerEntries_snapshot ht o sup).mpr (hkey ▸ hoff)
    rw [hp] at he
    cases he
  · have hw' := (mem_cancels_snapshot mq o sup w).mpr hw
    rw [hc] at hw'
    cases hw'

/-- With work pending, an extraction takes a want or a cancel out of what is pending. -/
theorem exists_lost (h : mq.Steady) (ht : mq.Typed) (o : Orders) (sup : Bool)
    (hwork : mq.pendingWorkCount ≠ 0) :
    (∃ w ∈ mq.cancels, w ∉ (mq.extract o sup).1.cancels) ∨
      (∃ w ∈ mq.peerWants.pending, w ∉ (mq.extract o sup).1.peerWants.pending) ∨
        ∃ w ∈ mq.bcstWants.pending, w ∉ (mq.extract o sup).1.bcstWants.pending := by
  have hd := drawn_extract h ht o sup
  have hgone : ∀ {l : Wantlist} {w : Want}, l.set.lookup w = none → w ∉ l :=
    fun hl hw => absurd hw (AList.lookup_eq_none.mp hl)
  by_cases hdrop : ∃ w ∈ mq.peerWants.pending,
      offered sup (mq.peerWants.pending.set.lookup w) = none
  · obtain ⟨w, hw, hnone⟩ := hdrop
    refine .inr (.inl ⟨w, hw, hgone ?_⟩)
    rw [hd.peerWants, hnone, ite_self]
  · have hcopy := snapshot_ne_nil ht o sup hwork fun w hw hnone => hdrop ⟨w, hw, hnone⟩
    rcases buildMessage_ne_nil (mq.snapshot o sup).1.maxMessageSize (mq.snapshot o sup).1.msg sup
      hcopy with hne | hne | hne
    · obtain ⟨w, hw⟩ := List.exists_mem_of_ne_nil _ hne
      exact .inl ⟨w, hd.cancel w hw, fun hw' => ((hd.cancels w).mp hw').2 hw⟩
    · obtain ⟨e, he⟩ := List.exists_mem_of_ne_nil _ hne
      refine .inr (.inl ⟨e.want, mem_iff.mpr ⟨e, ?_⟩, hgone ?_⟩)
      · exact (offered_eq_some.mp (hd.peer e he)).1
      · exact (hd.peerWants e.want).trans (if_pos (List.mem_map_of_mem he))
    · obtain ⟨e, he⟩ := List.exists_mem_of_ne_nil _ hne
      refine .inr (.inr ⟨e.want, mem_iff.mpr ⟨e, hd.bcst e he⟩, hgone ?_⟩)
      exact (hd.bcstWants e.want).trans (if_pos (List.mem_map_of_mem he))

theorem pendingWorkCount_extract_lt (h : mq.Steady) (ht : mq.Typed) (o : Orders) (sup : Bool)
    (hwork : mq.pendingWorkCount ≠ 0) :
    (mq.extract o sup).1.pendingWorkCount < mq.pendingWorkCount := by
  have hd := drawn_extract h ht o sup
  have hc : ∀ w ∈ (mq.extract o sup).1.cancels, w ∈ mq.cancels :=
    fun w hw => ((hd.cancels w).mp hw).1
  have hp : ∀ w ∈ (mq.extract o sup).1.peerWants.pending, w ∈ mq.peerWants.pending := by
    intro w hw
    obtain ⟨e, he⟩ := mem_iff.mp hw
    rw [hd.peerWants] at he
    split at he
    · cases he
    · exact mem_iff.mpr ⟨e, (offered_eq_some.mp he).1⟩
  have hb : ∀ w ∈ (mq.extract o sup).1.bcstWants.pending, w ∈ mq.bcstWants.pending := by
    intro w hw
    obtain ⟨e, he⟩ := mem_iff.mp hw
    rw [hd.bcstWants] at he
    split at he
    · cases he
    · exact mem_iff.mpr ⟨e, he⟩
  have hcl := GoMap.len_le hc
  have hpl : (mq.extract o sup).1.peerWants.pending.len ≤ mq.peerWants.pending.len :=
    GoMap.len_le hp
  have hbl : (mq.extract o sup).1.bcstWants.pending.len ≤ mq.bcstWants.pending.len :=
    GoMap.len_le hb
  rw [pendingWorkCount, pendingWorkCount]
  rcases exists_lost h ht o sup hwork with ⟨w, hw, hno⟩ | ⟨w, hw, hno⟩ | ⟨w, hw, hno⟩
  · have hlt := GoMap.len_lt hc hw hno
    omega
  · have hlt : (mq.extract o sup).1.peerWants.pending.len < mq.peerWants.pending.len :=
      GoMap.len_lt hp hw hno
    omega
  · have hlt : (mq.extract o sup).1.bcstWants.pending.len < mq.bcstWants.pending.len :=
      GoMap.len_lt hb hw hno
    omega

end Progress

/-! ## Extracting until nothing is pending -/

/-- Extractions one after another for as long as work is pending, with what went into each
message.  There is an order of ranges for each, so that there are at most as many. -/
def drain (supportsHave : Bool) :
    List Orders → MessageQueue → MessageQueue × List (Built × Message)
  | [], mq => (mq, [])
  | o :: os, mq =>
      if mq.pendingWorkCount = 0 then (mq, [])
      else
        let r := mq.extract o supportsHave
        let rest := drain supportsHave os r.1
        (rest.1, (mq.filled o supportsHave, r.2) :: rest.2)

/-- The want went in as a targeted want-block. -/
def Built.TargetsBlock (b : Built) (w : Want) : Prop :=
  ∃ e ∈ b.sentPeerEntries, e.want = w ∧ e.wantType = .wantBlock

instance (b : Built) (w : Want) : Decidable (b.TargetsBlock w) :=
  inferInstanceAs (Decidable (∃ e ∈ b.sentPeerEntries, e.want = w ∧ e.wantType = .wantBlock))

/-- What messages have in them that empty a queue: each cancel once; each targeted want,
with its type, unless it is a want-have and the peer does not know HAVE; each broadcast want;
and nothing that is none of these. -/
structure Drained (mq : MessageQueue) (sup : Bool) (ms : List (Built × Message)) : Prop where
  cancels : ∀ w, ms.countP (fun m => m.2.flag w = some true) = if w ∈ mq.cancels then 1 else 0
  peer : ∀ w e, mq.peerWants.pending.set.lookup w = some e →
    ¬ (sup = false ∧ e.wantType = .wantHave) →
      ∃ m ∈ ms, m.2.flag w = some false ∧ m.2.typeOf w = some e.wantType
  bcst : ∀ w ∈ mq.bcstWants.pending, ∃ m ∈ ms, m.2.flag w = some false ∧
    m.2.typeOf w = some (if sup = false ∨ m.1.TargetsBlock w then .wantBlock else .wantHave)
  only : ∀ m ∈ ms, ∀ w, m.2.flag w = some false →
    (∃ e, mq.peerWants.pending.set.lookup w = some e ∧
        ¬ (sup = false ∧ e.wantType = .wantHave) ∧ m.2.typeOf w = some e.wantType) ∨
      w ∈ mq.bcstWants.pending ∧ m.2.typeOf w = some (bcstType sup)

section Drain

variable {mq : MessageQueue} {sup : Bool}

theorem offered_eq_some_of_typed (h : mq.Typed) {w : Want} {e : Wantlist.Entry} :
    offered sup (mq.peerWants.pending.set.lookup w) = some e ↔
      mq.peerWants.pending.set.lookup w = some e ∧ ¬ (sup = false ∧ e.wantType = .wantHave) := by
  rw [offered_eq_some]
  refine and_congr_right fun he => ?_
  constructor
  · rintro hb ⟨hsup, hh⟩
    rw [hb hsup] at hh
    cases hh
  · intro hno hsup
    exact (h.pending w e he).resolve_right fun hh => hno ⟨hsup, hh⟩

theorem drained_nil (hz : mq.pendingWorkCount = 0) : Drained mq sup [] := by
  obtain ⟨hb, hp, hc⟩ := pendingWorkCount_eq_zero.mp hz
  refine ⟨fun w => (if_neg (hc w)).symm, fun w e he _ => ?_, fun w hw => absurd hw (hb w),
    fun m hm => by cases hm⟩
  exact absurd (mem_iff.mpr ⟨e, he⟩) (hp w)

section First

variable {b : Built} {r : MessageQueue × Message}

/-- What is pending for the peer afterwards was pending before, and is not dropped. -/
theorem Drawn.pending_before (ht : mq.Typed) (hd : Drawn mq sup b r) {w : Want}
    {e : Wantlist.Entry} (he : r.1.peerWants.pending.set.lookup w = some e) :
    mq.peerWants.pending.set.lookup w = some e ∧ ¬ (sup = false ∧ e.wantType = .wantHave) := by
  rw [hd.peerWants] at he
  split at he
  · cases he
  · exact (offered_eq_some_of_typed ht).mp he

/-- A pending targeted want that is not dropped goes out now or stays pending. -/
theorem Drawn.peer_now_or_later (ht : mq.Typed) (hd : Drawn mq sup b r) {w : Want}
    {e : Wantlist.Entry} (he : mq.peerWants.pending.set.lookup w = some e)
    (hsup : ¬ (sup = false ∧ e.wantType = .wantHave)) :
    (r.2.flag w = some false ∧ r.2.typeOf w = some e.wantType) ∨
      r.1.peerWants.pending.set.lookup w = some e := by
  by_cases hin : w ∈ b.sentPeerEntries.map (·.want)
  · obtain ⟨e', he', rfl⟩ := List.mem_map.mp hin
    have hsame := (offered_eq_some.mp (hd.peer e' he')).1
    obtain rfl : e = e' := Option.some.inj (he.symm.trans hsame)
    exact .inl ⟨(hd.asks _).mpr (.inl hin), hd.targeted e he'⟩
  · rw [hd.peerWants, if_neg hin]
    exact .inr ((offered_eq_some_of_typed ht).mpr ⟨he, hsup⟩)

/-- The type a broadcast want goes out with. -/
theorem Drawn.typeOf_bcst (ht : mq.Typed) (hd : Drawn mq sup b r) {w : Want}
    (hin : w ∈ b.sentBcstEntries.map (·.want)) :
    r.2.typeOf w = some (if sup = false ∨ b.TargetsBlock w then .wantBlock else .wantHave) := by
  by_cases hin' : w ∈ b.sentPeerEntries.map (·.want)
  · -- the message has it with the type of the targeted want
    obtain ⟨e, he, rfl⟩ := List.mem_map.mp hin'
    obtain ⟨hpend, hsup⟩ := (offered_eq_some_of_typed ht).mp (hd.peer e he)
    rw [hd.targeted e he]
    rcases ht.pending _ e hpend with hty | hty
    · rw [if_pos (.inr ⟨e, he, rfl, hty⟩), hty]
    · rw [if_neg, hty]
      rintro (hf | ⟨e', he', hw', hty'⟩)
      · exact hsup ⟨hf, hty⟩
      · have hsame := hd.targeted e' he'
        rw [hw', hd.targeted e he, hty, hty'] at hsame
        cases hsame
  · obtain ⟨e, he, rfl⟩ := List.mem_map.mp hin
    have hno : ¬ b.TargetsBlock e.want := by
      rintro ⟨e', he', hw', -⟩
      exact hin' (List.mem_map.mpr ⟨e', he', hw'⟩)
    rw [hd.broadcast e he hin']
    cases sup with
    | true => simp [bcstType, hno]
    | false => simp [bcstType]

theorem Drawn.bcst_before (hd : Drawn mq sup b r) {w : Want} (hw : w ∈ r.1.bcstWants.pending) :
    w ∈ mq.bcstWants.pending := by
  obtain ⟨e, he⟩ := mem_iff.mp hw
  rw [hd.bcstWants] at he
  split at he
  · cases he
  · exact mem_iff.mpr ⟨e, he⟩

theorem Drawn.only (ht : mq.Typed) (hd : Drawn mq sup b r) {w : Want}
    (hflag : r.2.flag w = some false) :
    (∃ e, mq.peerWants.pending.set.lookup w = some e ∧
        ¬ (sup = false ∧ e.wantType = .wantHave) ∧ r.2.typeOf w = some e.wantType) ∨
      w ∈ mq.bcstWants.pending ∧ r.2.typeOf w = some (bcstType sup) := by
  by_cases hin : w ∈ b.sentPeerEntries.map (·.want)
  · obtain ⟨e, he, rfl⟩ := List.mem_map.mp hin
    obtain ⟨hpend, hsup⟩ := (offered_eq_some_of_typed ht).mp (hd.peer e he)
    exact .inl ⟨e, hpend, hsup, hd.targeted e he⟩
  · obtain ⟨e, he, rfl⟩ := List.mem_map.mp (((hd.asks w).mp hflag).resolve_left hin)
    exact .inr ⟨mem_iff.mpr ⟨e, hd.bcst e he⟩, hd.broadcast e he hin⟩

/-- A first message and then messages that empty the queue it leaves. -/
theorem Drawn.drained_cons (ht : mq.Typed) (hd : Drawn mq sup b r) {ms : List (Built × Message)}
    (hms : Drained r.1 sup ms) : Drained mq sup ((b, r.2) :: ms) := by
  refine ⟨fun w => ?_, fun w e he hsup => ?_, fun w hw => ?_, fun m hm w hflag => ?_⟩
  · rw [List.countP_cons, hms.cancels]
    simp only [decide_eq_true_eq, hd.tells, hd.cancels]
    by_cases hw : w ∈ b.sentCancels
    · simp [hw, hd.cancel w hw]
    · simp [hw]
  · rcases hd.peer_now_or_later ht he hsup with hnow | hlater
    · exact ⟨_, List.mem_cons_self, hnow⟩
    · obtain ⟨m, hm, hask⟩ := hms.peer w e hlater hsup
      exact ⟨m, List.mem_cons_of_mem _ hm, hask⟩
  · by_cases hin : w ∈ b.sentBcstEntries.map (·.want)
    · exact ⟨_, List.mem_cons_self, (hd.asks w).mpr (.inr hin), hd.typeOf_bcst ht hin⟩
    · have hleft : w ∈ r.1.bcstWants.pending := by
        obtain ⟨e, he⟩ := mem_iff.mp hw
        exact mem_iff.mpr ⟨e, by rw [hd.bcstWants, if_neg hin, he]⟩
      obtain ⟨m, hm, hask⟩ := hms.bcst w hleft
      exact ⟨m, List.mem_cons_of_mem _ hm, hask⟩
  · rcases List.mem_cons.mp hm with rfl | hm
    · exact hd.only ht hflag
    · rcases hms.only m hm w hflag with ⟨e, he, -, hty⟩ | ⟨hw, hty⟩
      · obtain ⟨hpend, hsup⟩ := hd.pending_before ht he
        exact .inl ⟨e, hpend, hsup, hty⟩
      · exact .inr ⟨hd.bcst_before hw, hty⟩

end First

/-- As many extractions as there is work pending empty the queue. -/
theorem drain_spec (sup : Bool) : ∀ (os : List Orders) (mq : MessageQueue), mq.Steady → mq.Typed →
    mq.pendingWorkCount ≤ os.length →
      (drain sup os mq).1.pendingWorkCount = 0 ∧ Drained mq sup (drain sup os mq).2
  | [], mq, _, _, hlen => ⟨Nat.le_zero.mp hlen, drained_nil (Nat.le_zero.mp hlen)⟩
  | o :: os, mq, h, ht, hlen => by
      rw [drain]
      split
      · rename_i hz
        exact ⟨hz, drained_nil hz⟩
      · rename_i hwork
        have hlt := pendingWorkCount_extract_lt h ht o sup hwork
        have hst : (mq.extract o sup).1.Steady := steady_step mq (.extract o sup []) h
        have hty : (mq.extract o sup).1.Typed := typed_step mq (.extract o sup []) ht
        obtain ⟨hz, hms⟩ := drain_spec sup os (mq.extract o sup).1 hst hty
          (by rw [List.length_cons] at hlen; omega)
        exact ⟨hz, (drawn_extract h ht o sup).drained_cons ht hms⟩

end Drain

theorem typed_reached (n : Nat) (steps : List Step) : (run step (new n) steps).Typed :=
  run_invariant typed_step steps (typed_new n)

/-- **Extraction drains the queue.**  Take any state a queue reaches, with any maximum
size.  If work is pending, one extraction leaves less of it; and extractions one after
another end with no work pending, with messages that together have each cancel once,
each targeted want and each broadcast want, and nothing else. -/
theorem extraction_drains (n : Nat) (steps : List Step) (supportsHave : Bool) :
    let mq := run step (new n) steps
    (∀ o, 0 < mq.pendingWorkCount →
      (mq.extract o supportsHave).1.pendingWorkCount < mq.pendingWorkCount) ∧
    ∀ os : List Orders, mq.pendingWorkCount ≤ os.length →
      (drain supportsHave os mq).1.pendingWorkCount = 0 ∧
        Drained mq supportsHave (drain supportsHave os mq).2 := by
  intro mq
  have h : mq.Steady := steady_reached n steps
  have ht : mq.Typed := typed_reached n steps
  refine ⟨fun o hwork => ?_, fun os hlen => drain_spec supportsHave os mq h ht hlen⟩
  exact pendingWorkCount_extract_lt h ht o supportsHave (Nat.pos_iff_ne_zero.mp hwork)

/-- Three wants and a cancel, with messages of one entry each. -/
theorem extraction_drains_one_by_one :
    let w : Want := ⟨⟨[1]⟩, []⟩
    let w' : Want := ⟨⟨[2]⟩, []⟩
    let o : Orders := ⟨.stored, .stored, .stored⟩
    let mq := run step (new 1) [.add (.addWants [w'] []), .extract o true [],
      .add (.addCancels [w']), .add (.addWants [w] []), .add (.addBroadcastWantHaves [w])]
    mq.pendingWorkCount = 3 ∧ (mq.extract o true).1.pendingWorkCount < mq.pendingWorkCount ∧
      (drain true [o, o, o] mq).1.pendingWorkCount = 0 ∧
        Drained mq true (drain true [o, o, o] mq).2 := by
  intro w w' o mq
  have hmain := extraction_drains 1 [.add (.addWants [w'] []), .extract o true [],
    .add (.addCancels [w']), .add (.addWants [w] []), .add (.addBroadcastWantHaves [w])] true
  have hthree : mq.pendingWorkCount = 3 := by decide +kernel
  exact ⟨hthree, hmain.1 o (by rw [hthree]; decide), hmain.2 [o, o, o] (by rw [hthree]; decide)⟩

end MessageQueue

end BitswapAuth
