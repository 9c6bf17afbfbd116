/-
# `BitswapAuth.Message.Codec` — the wire format, read and written

What `MarshalTo` writes `Unmarshal` reads back, and what else `Unmarshal` does with
bytes that nobody of this version has written: it reads a concatenation part after
part, passes over fields it has no number for, wherever they stand, and returns on
whatever a sender makes up, groups nested too deep for the stack aside.

The results are read off the parser without an index.  A field of the writer is one
record to it (`parse_bytesField`, `parse_int32Field`, `parse_boolField`), and a message
is the records of its fields one after the other.
-/
import BitswapAuth.Message.Marshal
import BitswapAuth.Message.Unmarshal

namespace BitswapAuth

open Lib

variable {E σ : Type}

/-! ## Fields that were written -/

theorem varint_encode (w : Nat) {v : Nat} (hv : v < 18446744073709551616) (rest : Bytes) :
    varint w (Varint.encode v ++ rest) = some (BitVec.ofNat w v, rest) := by
  show Varint.decode (List.range' 0 10 7) 0 _ = _
  rw [Varint.decode_encode 10 rest (by decide) (by omega)]
  simp

theorem delimited_bytes {b : Bytes} (hb : b.length < 9223372036854775808) (rest : Bytes) :
    delimited (Varint.encode b.length ++ (b ++ rest)) = some (b, rest) := by
  have hlen := varint_encode 64 (v := b.length) (by omega) (b ++ rest)
  have hnat : (BitVec.ofNat 64 b.length).toNat = b.length := by
    rw [BitVec.toNat_ofNat]
    omega
  rw [delimited, Parser.seq, hlen, Option.bind_some, hnat, if_pos hb]
  exact Parser.take_append rfl

/-- The tag of a field, in one byte. -/
def IsTag (tag : UInt8) (fieldNum : Int) (wireType : Nat) : Prop :=
  tag < 128 ∧ fieldNumOf (BitVec.ofNat 64 tag.toNat) = fieldNum ∧
    wireTypeOf (BitVec.ofNat 64 tag.toNat) = wireType ∧ 0 < fieldNum ∧ wireType ≠ 4

instance (tag : UInt8) (fieldNum : Int) (wireType : Nat) :
    Decidable (IsTag tag fieldNum wireType) :=
  inferInstanceAs (Decidable (_ ∧ _))

section

variable {field : Int → Option (Field E σ)} {F : Nat} {m m' : σ} {tag : UInt8} {k : Int} {wt : Nat}

/-- Behind the tag of a field that is known, its value is read as its case says. -/
theorem fieldStep_tag (ht : IsTag tag k wt) {f : Field E σ} (hf : field k = some f) (rest : Bytes) :
    fieldStep F field m ([tag] ++ rest) = f.parse wt m rest := by
  obtain ⟨hlt, hnum, hwire, hpos, hend⟩ := ht
  have hlt' : tag.toNat < 128 := UInt8.lt_iff_toNat_lt.mp hlt
  have htag := varint_encode 64 (v := tag.toNat) (by omega) rest
  rw [Varint.encode_small hlt', UInt8.ofNat_toNat] at htag
  rw [fieldStep, Parser.seq, htag, Option.bind_some]
  simp only [hnum, hwire, hf]
  rw [if_neg (by omega)]

theorem parse_one {b : Bytes} (h : fieldStep F field m b = some (m', [])) :
    parseAll (fieldStep F field) m b = some m' := by
  have := parseAll_record (steps_fieldStep F field) h []
  rwa [List.append_nil] at this

/-- A field that was written is read into the message. -/
theorem parse_bytesField (ht : IsTag tag k 2) {name : String}
    {set : Bytes → σ → Outcome (UnmarshalErr E) σ} (hf : field k = some (.bytes name set))
    {b : Bytes} (hb : b.length < 9223372036854775808) (hset : set b m = .ok m') :
    parseAll (fieldStep F field) m (bytesField tag b) = some m' := by
  have hval := delimited_bytes hb []
  rw [List.append_nil] at hval
  refine parse_one ?_
  rw [bytesField, fieldStep_tag ht hf, Field.parse, if_neg (by simp), Parser.filterMap, hval,
    Option.bind_some, hset]
  rfl

theorem ofBitVec_uint64OfInt32 (p : Int32) :
    Int32.ofBitVec (BitVec.ofNat 32 (uint64OfInt32 p)) = p := by
  have hlow : BitVec.ofNat 32 (uint64OfInt32 p) = BitVec.ofInt 32 p.toInt := by
    refine BitVec.eq_of_toNat_eq ?_
    rw [uint64OfInt32, BitVec.toNat_ofNat, BitVec.toNat_ofInt, BitVec.toNat_ofInt]
    omega
  rw [hlow]
  show Int32.ofBitVec (BitVec.ofInt 32 p.toBitVec.toInt) = p
  rw [BitVec.ofInt_toInt, Int32.ofBitVec_toBitVec]

@[inherit_doc parse_bytesField]
theorem parse_int32Field (ht : IsTag tag k 0) {name : String} (f : Int32 → σ → σ)
    (hf : field k = some (.int32 name f)) (p : Int32) :
    parseAll (fieldStep F field) m (varintField tag (uint64OfInt32 p)) = some (f p m) := by
  have hval := varint_encode 32 (uint64OfInt32_lt p) []
  rw [List.append_nil] at hval
  refine parse_one ?_
  rw [varintField, fieldStep_tag ht hf, Field.parse, if_neg (by simp), Parser.filterMap, hval,
    Option.bind_some, ofBitVec_uint64OfInt32]
  rfl

@[inherit_doc parse_bytesField]
theorem parse_boolField (ht : IsTag tag k 0) {name : String} (f : Bool → σ → σ)
    (hf : field k = some (.bool name f)) :
    parseAll (fieldStep F field) m (boolField tag) = some (f true m) := by
  refine parse_one ?_
  rw [boolField, fieldStep_tag ht hf, Field.parse, if_neg (by simp)]
  rfl

theorem parse_then {a b : Bytes} {m₁ m₂ : σ} (ha : parseAll (fieldStep F field) m a = some m₁)
    (hb : parseAll (fieldStep F field) m₁ b = some m₂) :
    parseAll (fieldStep F field) m (a ++ b) = some m₂ := by
  rw [parseAll_append (steps_fieldStep F field) _ (Nat.le_refl _) ha, hb]

theorem parse_opt {c : Prop} [Decidable c] {r : Bytes}
    (h : c → parseAll (fieldStep F field) m r = some m') (h' : ¬ c → m = m') :
    parseAll (fieldStep F field) m (if c then r else []) = some m' := by
  by_cases hc : c
  · rw [if_pos hc]
    exact h hc
  · rw [if_neg hc, h' hc]
    exact parseAll_nil m'

/-- A field that is left out when it has its zero value is read as it was. -/
theorem parse_optBytes (ht : IsTag tag k 2) {name : String} (f : Bytes → σ → σ)
    (hf : field k = some (.bytes name fun b m => .ok (f b m))) (hzero : f [] m = m) {b : Bytes}
    (hb : b.length < 9223372036854775808) :
    parseAll (fieldStep F field) m (if b.length > 0 then bytesField tag b else []) =
      some (f b m) := by
  refine parse_opt (fun _ => parse_bytesField ht hf hb rfl) fun hempty => ?_
  rw [List.length_eq_zero_iff.mp (Nat.eq_zero_of_not_pos hempty), hzero]

@[inherit_doc parse_optBytes]
theorem parse_optInt32 (ht : IsTag tag k 0) {name : String} (f : Int32 → σ → σ)
    (hf : field k = some (.int32 name f)) (hzero : f 0 m = m) (p : Int32) :
    parseAll (fieldStep F field) m (if p ≠ 0 then varintField tag (uint64OfInt32 p) else []) =
      some (f p m) := by
  refine parse_opt (fun _ => parse_int32Field ht f hf p) fun hp => ?_
  rw [Decidable.of_not_not hp, hzero]

@[inherit_doc parse_optBytes]
theorem parse_optBool (ht : IsTag tag k 0) {name : String} (f : Bool → σ → σ)
    (hf : field k = some (.bool name f)) (hzero : f false m = m) (b : Bool) :
    parseAll (fieldStep F field) m (if b then boolField tag else []) = some (f b m) := by
  cases b with
  | false =>
      rw [if_neg (by simp), hzero]
      exact parseAll_nil m
  | true =>
      rw [if_pos rfl]
      exact parse_boolField ht f hf

/-- A repeated field is read element by element, each put behind those before it. -/
theorem parse_repeated (ht : IsTag tag k 2) {name : String}
    {set : Bytes → σ → Outcome (UnmarshalErr E) σ} (hf : field k = some (.bytes name set))
    {X : Type} {bytes : X → Bytes} (f : List X → σ) :
    ∀ l done : List X,
      (∀ x ∈ l, (bytes x).length < 9223372036854775808 ∧
        ∀ before, set (bytes x) (f before) = .ok (f (before ++ [x]))) →
      parseAll (fieldStep F field) (f done) (l.flatMap fun x => bytesField tag (bytes x)) =
        some (f (done ++ l))
  | [], done, _ => by
      rw [List.append_nil]
      exact parseAll_nil _
  | x :: l, done, h => by
      obtain ⟨⟨hlen, hx⟩, hl⟩ := List.forall_mem_cons.mp h
      have hrest := parse_repeated ht hf f l (done ++ [x]) hl
      rw [List.append_assoc, List.singleton_append] at hrest
      exact parse_then (parse_bytesField ht hf hlen (hx done)) hrest

end

/-! ## The numbers of the enumerations -/

theorem WantType.exists_ofInt32 (t : WantType) : ∃ n, t = ofInt32 n := by
  cases t with
  | wantBlock => exact ⟨0, rfl⟩
  | wantHave => exact ⟨1, rfl⟩
  | unknown n h => exact ⟨n, by rw [ofInt32, dif_neg h.1, dif_neg h.2]⟩

theorem WantType.toPB_ofInt32 (n : Int32) : (ofInt32 n).toPB = uint64OfInt32 n := by
  unfold ofInt32
  split_ifs with h₀ h₁
  · subst h₀
    rfl
  · subst h₁
    rfl
  · rfl

theorem BlockPresenceType.exists_ofInt32 (t : BlockPresenceType) : ∃ n, t = ofInt32 n := by
  cases t with
  | HAVE => exact ⟨0, rfl⟩
  | DONT_HAVE => exact ⟨1, rfl⟩
  | unknown n h => exact ⟨n, by rw [ofInt32, dif_neg h.1, dif_neg h.2]⟩

theorem BlockPresenceType.toPB_ofInt32 (n : Int32) : (ofInt32 n).toPB = uint64OfInt32 n := by
  unfold ofInt32
  split_ifs with h₀ h₁
  · subst h₀
    rfl
  · subst h₁
    rfl
  · rfl

theorem uint64OfInt32_ne_zero (n : Int32) : uint64OfInt32 n ≠ 0 ↔ n ≠ 0 := by
  refine not_congr ⟨fun h => ?_, fun h => ?_⟩
  · rw [← ofBitVec_uint64OfInt32 n, h]
    rfl
  · rw [h]
    rfl

/-- A number that is written and left out as `uint64`. -/
theorem wire_enum (tag : UInt8) {v : Nat} {n : Int32} (h : v = uint64OfInt32 n) :
    (if v ≠ 0 then varintField tag v else []) =
      if n ≠ 0 then varintField tag (uint64OfInt32 n) else [] := by
  subst h
  simp only [uint64OfInt32_ne_zero]

/-! ## The round trip -/

namespace PB

variable {cast : Bytes → Except E Cid} {F : Nat}

/-- The CID that a message begins with. -/
theorem parse_cid {σ : Type} {field : Int → Option (Field E σ)} {name : String}
    (f : Cid → σ → σ) (hf : field 1 = some (.bytes name fun b m => do
      let c ← Cid.unmarshal cast b
      return f c m)) {c : Cid} (hcast : cast c.str = .ok c)
    (hlen : c.str.length < 9223372036854775808) {m : σ} :
    parseAll (fieldStep F field) m (bytesField 0xa c.str) = some (f c m) := by
  refine parse_bytesField (k := 1) (by decide) hf hlen ?_
  simp only [Cid.unmarshal, hcast]
  rfl

theorem Entry.parse_wire (m : PB.Entry) (hcast : cast m.block.str = .ok m.block)
    (h : m.size < 9223372036854775808) :
    parseAll (fieldStep F (Entry.field cast)) Entry.zero m.wire = some m := by
  obtain ⟨c, p, cancel, t, dont, auth⟩ := m
  obtain ⟨n, rfl⟩ := t.exists_ofInt32
  have hcid := le_sizeBytes c.str.length
  have hauth := le_sizeOptBytes auth.length
  rw [size] at h
  dsimp only at h hcast
  simp only [wire, wire_enum 0x20 (WantType.toPB_ofInt32 n)]
  exact parse_then (parse_cid (fun c (m : PB.Entry) => { m with block := c }) rfl hcast (by omega))
    (parse_then (parse_optInt32 (k := 2) (by decide)
      (fun v (m : PB.Entry) => { m with priority := v }) rfl rfl p)
    (parse_then (parse_optBool (k := 3) (by decide) (fun v (m : PB.Entry) => { m with cancel := v })
      rfl rfl cancel)
    (parse_then (parse_optInt32 (k := 4) (by decide)
      (fun v (m : PB.Entry) => { m with wantType := .ofInt32 v }) rfl rfl n)
    (parse_then (parse_optBool (k := 5) (by decide)
      (fun v (m : PB.Entry) => { m with sendDontHave := v }) rfl rfl dont)
    (parse_optBytes (k := 6) (by decide) (fun b (m : PB.Entry) => { m with auth := b }) rfl rfl
      (by omega))))))

/-- What was written as a part is read as it was. -/
theorem unmarshal_of_parse {σ : Type} {name : String} {field : Int → Option (Field E σ)}
    (hfield : ∀ k f, field k = some f → f.Settled) {m m' : σ} {d : Bytes} {n : Nat}
    (hd : d.length ≤ n) (hn : n + 8 < 9223372036854775808)
    (h : parseAll (fieldStep (2 * d.length) field) m d = some m') :
    unmarshal name field m d = .ok m' := by
  refine (unmarshal_ok_iff hfield ?_ (Nat.le_refl _)).mpr h
  unfold Addressable
  omega

theorem Wantlist.parse_wire (m : PB.Wantlist)
    (hcast : ∀ e ∈ m.entries, cast e.block.str = .ok e.block)
    (h : m.size + 8 < 9223372036854775808) :
    parseAll (fieldStep F (Wantlist.field cast)) Wantlist.zero m.wire = some m := by
  have hread : ∀ e ∈ m.entries, e.wire.length < 9223372036854775808 ∧
      Entry.zero.unmarshal cast e.wire = .ok e := by
    intro e he
    have hle := le_of_mem_repeated 0xa (f := Entry.wire) he
    rw [← length_wire, wire, List.length_append] at h
    exact ⟨by omega, unmarshal_of_parse Entry.settled hle (by omega)
      (e.parse_wire (hcast e he) (by rw [← e.length_wire]; omega))⟩
  refine parse_then (parse_repeated (k := 1) (by decide) rfl (fun l => (⟨l, false⟩ : PB.Wantlist))
    m.entries [] fun e he => ⟨(hread e he).1, fun before => ?_⟩)
    (parse_optBool (k := 2) (by decide) (fun v (m : PB.Wantlist) => { m with full := v }) rfl rfl
      m.full)
  rw [(hread e he).2]
  rfl

theorem Block.parse_wire (m : PB.Block) (h : m.size < 9223372036854775808) :
    parseAll (fieldStep F (Block.field : Int → Option (Field E PB.Block))) Block.zero m.wire =
      some m := by
  have hpref := le_sizeOptBytes m.cidPrefix.length
  have hdata := le_sizeOptBytes m.data.length
  have hauth := le_sizeOptBytes m.auth.length
  rw [size] at h
  exact parse_then (parse_optBytes (k := 1) (by decide)
      (fun b (m : PB.Block) => { m with cidPrefix := b }) rfl rfl (by omega))
    (parse_then (parse_optBytes (k := 2) (by decide)
      (fun b (m : PB.Block) => { m with data := b }) rfl rfl (by omega))
    (parse_optBytes (k := 3) (by decide)
      (fun b (m : PB.Block) => { m with auth := b }) rfl rfl (by omega)))

theorem BlockPresence.parse_wire (m : PB.BlockPresence) (hcast : cast m.cid.str = .ok m.cid)
    (h : m.size < 9223372036854775808) :
    parseAll (fieldStep F (BlockPresence.field cast)) BlockPresence.zero m.wire = some m := by
  obtain ⟨c, t, auth⟩ := m
  obtain ⟨n, rfl⟩ := t.exists_ofInt32
  have hcid := le_sizeBytes c.str.length
  have hauth := le_sizeOptBytes auth.length
  rw [size] at h
  dsimp only at h hcast
  simp only [wire, wire_enum 0x10 (BlockPresenceType.toPB_ofInt32 n)]
  exact parse_then
    (parse_cid (fun c (m : PB.BlockPresence) => { m with cid := c }) rfl hcast (by omega))
    (parse_then (parse_optInt32 (k := 2) (by decide)
      (fun v (m : PB.BlockPresence) => { m with type := .ofInt32 v }) rfl rfl n)
    (parse_optBytes (k := 3) (by decide) (fun b (m : PB.BlockPresence) => { m with auth := b }) rfl
      rfl (by omega)))

/-- The CIDs of a message are such as `cid.Cast` accepts. -/
structure Message.Castable (cast : Bytes → Except E Cid) (m : PB.Message) : Prop where
  entries : ∀ e ∈ m.wantlist.entries, cast e.block.str = .ok e.block
  presences : ∀ e ∈ m.blockPresences, cast e.cid.str = .ok e.cid

theorem Message.parse_wire (m : PB.Message) (hcast : m.Castable cast)
    (h : m.size + 8 < 9223372036854775808) :
    parseAll (fieldStep F (Message.field cast)) Message.zero m.wire = some m := by
  obtain ⟨hwl, hblocks, hpayload, hpresences⟩ := m.parts_le
  obtain ⟨wl, bs, ps, prs, n⟩ := m
  dsimp only at hwl hblocks hpayload hpresences
  have hwant : parseAll (fieldStep F (Message.field cast)) Message.zero (bytesField 0xa wl.wire) =
      some ⟨wl, [], [], [], 0⟩ := by
    have hread : Wantlist.zero.unmarshal cast wl.wire = .ok wl :=
      unmarshal_of_parse Wantlist.settled (Nat.le_of_eq wl.length_wire) (by omega)
        (wl.parse_wire hcast.entries (by omega))
    refine parse_bytesField (k := 1) (by decide) rfl (by rw [Wantlist.length_wire]; omega) ?_
    show (Wantlist.zero.unmarshal cast wl.wire >>= _) = _
    rw [hread]
    rfl
  refine parse_then hwant (parse_then (parse_repeated (k := 2) (by decide) rfl
      (fun l => (⟨wl, l, [], [], 0⟩ : PB.Message)) bs [] fun b hb => ⟨?_, fun before => rfl⟩)
    (parse_then (parse_repeated (k := 3) (by decide) rfl
      (fun l => (⟨wl, bs, l, [], 0⟩ : PB.Message)) ps [] fun e he => ⟨?_, fun before => ?_⟩)
    (parse_then (parse_repeated (k := 4) (by decide) rfl
      (fun l => (⟨wl, bs, ps, l, 0⟩ : PB.Message)) prs [] fun e he => ⟨?_, fun before => ?_⟩)
    (parse_optInt32 (k := 5) (by decide) (fun v (m : PB.Message) => { m with pendingBytes := v })
      rfl rfl n))))
  · have := hblocks b hb
    omega
  · have := hpayload e he
    rw [e.length_wire]
    omega
  · have hread : (Block.zero.unmarshal e.wire : Outcome (UnmarshalErr E) PB.Block) = .ok e :=
      unmarshal_of_parse Block.settled (Nat.le_of_eq e.length_wire)
        (by have := hpayload e he; omega) (e.parse_wire (by have := hpayload e he; omega))
    rw [hread]
    rfl
  · have := hpresences e he
    rw [e.length_wire]
    omega
  · have hread : BlockPresence.zero.unmarshal cast e.wire = .ok e :=
      unmarshal_of_parse BlockPresence.settled (Nat.le_of_eq e.length_wire)
        (by have := hpresences e he; omega)
        (e.parse_wire (hcast.presences e he) (by have := hpresences e he; omega))
    rw [hread]
    rfl

theorem Message.unmarshal_wire {m : PB.Message} (hcast : m.Castable cast)
    (h : m.size + 8 < 9223372036854775808) : Message.zero.unmarshal cast m.wire = .ok m :=
  unmarshal_of_parse Message.settled (Nat.le_of_eq m.length_wire) h (m.parse_wire hcast h)

/-- **What is written is read back**: the bytes that `Marshal` returns are `Size` many, and
`Unmarshal` makes the same message of them. -/
theorem Message.unmarshal_marshal (cast : Bytes → Except E Cid) (m : PB.Message)
    (hcast : m.Castable cast) (h : m.size + 8 < 9223372036854775808) :
    ∃ bytes : Bytes, (m.marshal : Outcome E Bytes) = .ok bytes ∧ bytes.length = m.size ∧
      Message.zero.unmarshal cast bytes = .ok m :=
  ⟨m.wire, Message.marshal_eq (by omega), m.length_wire, Message.unmarshal_wire hcast h⟩

/-- A library that takes every string of bytes for a CID. -/
def castAny (b : Bytes) : Except Unit Cid := .ok ⟨b⟩

theorem castAny_str (c : Cid) : castAny c.str = .ok c := rfl

theorem Message.castable_any (m : PB.Message) : m.Castable castAny :=
  ⟨fun e _ => castAny_str e.block, fun e _ => castAny_str e.cid⟩

theorem Message.unmarshal_marshal_sample :
    ∃ bytes : Bytes, (Message.sample.marshal : Outcome Unit Bytes) = .ok bytes ∧
      bytes.length = Message.sample.size ∧
      Message.zero.unmarshal castAny bytes = .ok Message.sample :=
  Message.unmarshal_marshal castAny Message.sample Message.sample.castable_any (by decide)

/-- **`Unmarshal` returns on every slice**, with a message or with an error, as far as the stack
goes: it never indexes out of range, never reaches the panic that ends `skipMessage`, and no loop
of it goes on for ever. -/
theorem Message.unmarshal_returns (cast : Bytes → Except E Cid) (m : PB.Message) (dAtA : Bytes)
    (h : dAtA.length + 8 < 9223372036854775808) :
    (∃ m', m.unmarshal cast dAtA = .ok m') ∨ ∃ e, m.unmarshal cast dAtA = .error (.err e) :=
  (matches_unmarshal Message.settled h (Nat.le_refl _) m).returns

/-- A tag, and the length of a wantlist that is not there. -/
theorem Message.unmarshal_returns_cut :
    (∃ m', Message.zero.unmarshal castAny [0xa, 0xff, 0x7f] = .ok m') ∨
      ∃ e, Message.zero.unmarshal castAny [0xa, 0xff, 0x7f] = .error (.err e) :=
  Message.unmarshal_returns _ Message.zero [0xa, 0xff, 0x7f] (by decide)

theorem Message.unmarshal_iff {m m' : PB.Message} {d : Bytes} {n : Nat} (hd : d.length ≤ n)
    (hn : n + 8 < 9223372036854775808) :
    m.unmarshal cast d = .ok m' ↔
      parseAll (fieldStep (2 * n) (Message.field cast)) m d = some m' := by
  refine unmarshal_ok_iff Message.settled ?_ (by omega)
  unfold Addressable
  omega

/-- **Slices may be put together**: to read one behind the other is to read the second into
what was read from the first. -/
theorem Message.unmarshal_append (cast : Bytes → Except E Cid) (m m' : PB.Message) (a b : Bytes)
    (hlen : a.length + b.length + 8 < 9223372036854775808) (ha : m.unmarshal cast a = .ok m')
    (m'' : PB.Message) :
    m.unmarshal cast (a ++ b) = .ok m'' ↔ m'.unmarshal cast b = .ok m'' := by
  rw [unmarshal_iff (n := a.length + b.length) (by simp) hlen] at ha ⊢
  rw [unmarshal_iff (n := a.length + b.length) (by simp) hlen,
    parseAll_append (steps_fieldStep _ _) _ (Nat.le_refl _) ha]

theorem Message.unmarshal_sample :
    Message.zero.unmarshal castAny Message.sample.wire = .ok Message.sample :=
  Message.unmarshal_wire Message.sample.castable_any (by decide)

/-- A message, and behind it another number of pending bytes: the second counts. -/
theorem Message.unmarshal_append_pending :
    Message.zero.unmarshal castAny (Message.sample.wire ++ varintField 0x28 (uint64OfInt32 5)) =
      .ok { Message.sample with pendingBytes := 5 } := by
  have hlen : (varintField 0x28 (uint64OfInt32 5)).length = 2 := by
    rw [length_varintField]
    decide
  have hpending : parseAll (fieldStep (2 * 2) (Message.field castAny)) Message.sample
      (varintField 0x28 (uint64OfInt32 5)) = some { Message.sample with pendingBytes := 5 } :=
    parse_int32Field (k := 5) (by decide) (fun v (m : PB.Message) => { m with pendingBytes := v })
      rfl 5
  refine (Message.unmarshal_append castAny Message.zero Message.sample Message.sample.wire _ ?_
    Message.unmarshal_sample _).mpr ((unmarshal_iff (by rw [hlen]) (by decide)).mpr hpending)
  rw [Message.length_wire, hlen]
  decide

end PB

/-! ## Fields of other versions -/

mutual

/-- The value of a field of another version. -/
inductive Unknown where
  | varint (v : UInt64)
  | fixed64 (b : Bytes) (h : b.length = 8)
  | delimited (b : Bytes) (h : b.length < 9223372036854775808)
  | group (fields : Unknowns)
  | fixed32 (b : Bytes) (h : b.length = 4)

/-- The fields of a group, each with its number. -/
inductive Unknowns where
  | nil
  | cons (num : Nat) (h : num < 536870912) (value : Unknown) (rest : Unknowns)

end

namespace Unknown

/-- The wire type of a value. -/
def wireType : Unknown → Nat
  | varint _ => 0
  | fixed64 _ _ => 1
  | delimited _ _ => 2
  | group _ => 3
  | fixed32 _ _ => 5

/-- The tag of a field. -/
def tag (num wireType : Nat) : Bytes := Varint.encode (num * 8 + wireType)

mutual

/-- The bytes of a value behind its tag. -/
def body (num : Nat) : Unknown → Bytes
  | varint v => Varint.encode v.toNat
  | fixed64 b _ => b
  | delimited b _ => Varint.encode b.length ++ b
  | group fields => bodies fields ++ tag num 4
  | fixed32 b _ => b

/-- The fields of a group. -/
def bodies : Unknowns → Bytes
  | .nil => []
  | .cons num _ value rest => tag num value.wireType ++ (body num value ++ bodies rest)

end

/-- The field, with its tag. -/
def wire (num : Nat) (value : Unknown) : Bytes := tag num value.wireType ++ value.body num

theorem wireType_lt (value : Unknown) : value.wireType < 8 ∧ value.wireType ≠ 4 := by
  cases value <;> exact ⟨by simp [wireType], by simp [wireType]⟩

section

variable {num t : Nat} (ht : t < 8) (hnum : num < 536870912)

include ht

theorem wireTypeOf_tag : wireTypeOf (BitVec.ofNat 64 (num * 8 + t)) = t := by
  rw [wireTypeOf, BitVec.toNat_and, BitVec.toNat_ofNat]
  show ((num * 8 + t) % 18446744073709551616) &&& (2 ^ 3 - 1) = t
  rw [Nat.and_two_pow_sub_one_eq_mod]
  omega

include hnum

theorem fieldNumOf_tag : fieldNumOf (BitVec.ofNat 64 (num * 8 + t)) = num := by
  have hshift : (num * 8 + t) >>> 3 = num := by
    rw [Nat.shiftRight_eq_div_pow]
    omega
  have hmod : (num * 8 + t) % 18446744073709551616 = num * 8 + t := Nat.mod_eq_of_lt (by omega)
  rw [fieldNumOf, BitVec.toInt_eq_toNat_of_lt] <;>
    rw [BitVec.toNat_setWidth, BitVec.toNat_ushiftRight, BitVec.toNat_ofNat, hmod, hshift] <;>
    omega

theorem varint_tag (rest : Bytes) :
    BitswapAuth.varint 64 (tag num t ++ rest) = some (BitVec.ofNat 64 (num * 8 + t), rest) :=
  varint_encode 64 (by omega) rest

end

mutual

/-- The value behind a tag is passed over as a whole, with the groups in it. -/
theorem skipValue_body (num : Nat) : ∀ (value : Unknown) (F : Nat), num < 536870912 →
    2 * (value.body num).length + 2 ≤ F → ∀ rest,
      skipValue F (BitVec.ofNat 64 (num * 8 + value.wireType)) (value.body num ++ rest) =
        some ((), rest)
  | value, 0, _, hF, _ => absurd hF (by omega)
  | varint v, F + 1, _, _, rest => by
      rw [skipValue, wireTypeOf_tag (wireType_lt _).1]
      show Parser.filterMap _ (BitswapAuth.varint 64) (Varint.encode v.toNat ++ rest) = _
      rw [Parser.filterMap, varint_encode 64 v.toNat_lt]
      rfl
  | fixed64 b h, F + 1, _, _, rest => by
      rw [skipValue, wireTypeOf_tag (wireType_lt _).1]
      show Parser.filterMap _ (Parser.take 8) (b ++ rest) = _
      rw [Parser.filterMap, Parser.take_append h]
      rfl
  | delimited b h, F + 1, _, _, rest => by
      rw [skipValue, wireTypeOf_tag (wireType_lt _).1]
      show Parser.filterMap _ BitswapAuth.delimited ((Varint.encode b.length ++ b) ++ rest) = _
      rw [Parser.filterMap, List.append_assoc, delimited_bytes h]
      rfl
  | group fields, F + 1, hnum, hF, rest => by
      rw [skipValue, wireTypeOf_tag (wireType_lt _).1]
      show skipBody F (bodies fields ++ tag num 4 ++ rest) = _
      rw [body] at hF
      exact skipBody_bodies num fields F hnum (by omega) rest
  | fixed32 b h, F + 1, _, _, rest => by
      rw [skipValue, wireTypeOf_tag (wireType_lt _).1]
      show Parser.filterMap _ (Parser.take 4) (b ++ rest) = _
      rw [Parser.filterMap, Parser.take_append h]
      rfl

/-- The fields of a group are passed over up to the tag that ends it. -/
theorem skipBody_bodies (num : Nat) : ∀ (fields : Unknowns) (F : Nat), num < 536870912 →
    2 * (bodies fields ++ tag num 4).length + 1 ≤ F → ∀ rest,
      skipBody F (bodies fields ++ tag num 4 ++ rest) = some ((), rest)
  | fields, 0, _, hF, _ => absurd hF (by omega)
  | .nil, F + 1, hnum, _, rest => by
      rw [bodies, List.nil_append, skipBody, Parser.seq, varint_tag (by decide) hnum,
        Option.bind_some]
      dsimp only
      rw [wireTypeOf_tag (by decide), if_pos rfl]
  | .cons num' hnum' value fields, F + 1, hnum, hF, rest => by
      obtain ⟨hlt, hne⟩ := value.wireType_lt
      have htag := List.length_pos_iff.mpr (Varint.encode_ne_nil (num' * 8 + value.wireType))
      simp only [bodies, List.length_append, tag] at hF
      have hvalue := skipValue_body num' value F hnum' (by omega)
        (bodies fields ++ tag num 4 ++ rest)
      have hfields := skipBody_bodies num fields F hnum
        (by simp only [List.length_append, tag]; omega) rest
      rw [bodies, skipBody, Parser.seq]
      simp only [List.append_assoc] at hvalue hfields ⊢
      rw [varint_tag hlt hnum', Option.bind_some]
      dsimp only
      rw [wireTypeOf_tag hlt, if_neg hne, Parser.seq, hvalue]
      exact hfields

end

/-- To a type without the number the field is one record that changes nothing. -/
theorem fieldStep_wire {σ : Type} {field : Int → Option (Field E σ)} {num : Nat} (hpos : 0 < num)
    (hnum : num < 536870912) (hnone : field num = none) (value : Unknown) {F : Nat}
    (hF : 2 * (value.wire num).length ≤ F) (m : σ) :
    fieldStep F field m (value.wire num) = some (m, []) := by
  obtain ⟨hlt, hne⟩ := value.wireType_lt
  have htag := List.length_pos_iff.mpr (Varint.encode_ne_nil (num * 8 + value.wireType))
  rw [wire, List.length_append, tag] at hF
  have hvalue := skipValue_body num value F hnum (by omega) []
  rw [List.append_nil] at hvalue
  rw [fieldStep, Parser.seq, wire, varint_tag hlt hnum, Option.bind_some]
  simp only [wireTypeOf_tag hlt, fieldNumOf_tag hlt hnum, hnone]
  rw [if_neg (by omega), Parser.filterMap, hvalue]
  rfl

end Unknown

/-- **A field of another version is passed over**: put between two fields of a message, it
changes neither whether the message is read nor what is read, whatever its wire type, nested groups
included.  Which error a message that is not read ends with may change. -/
theorem PB.Message.unmarshal_unknown (cast : Bytes → Except E Cid) (m m' : PB.Message)
    (a b : Bytes) (ha : m.unmarshal cast a = .ok m') (num : Nat) (hnum : 5 < num)
    (hnum' : num < 536870912) (value : Unknown)
    (hlen : a.length + (value.wire num).length + b.length + 8 < 9223372036854775808)
    (m'' : PB.Message) :
    m.unmarshal cast (a ++ value.wire num ++ b) = .ok m'' ↔
      m.unmarshal cast (a ++ b) = .ok m'' := by
  have hnone : Message.field cast (num : Int) = none := by
    unfold Message.field
    split <;> first | omega | rfl
  have hsteps := steps_fieldStep (2 * (a.length + (value.wire num).length + b.length))
    (Message.field cast)
  have hn : (a ++ b).length ≤ a.length + (value.wire num).length + b.length := by
    rw [List.length_append]
    omega
  have hskip := parseAll_record hsteps (s := m')
    (Unknown.fieldStep_wire (by omega) hnum' hnone value (by omega) m') b
  rw [unmarshal_iff (by omega) hlen] at ha
  rw [unmarshal_iff (by simp only [List.length_append]; omega) hlen, unmarshal_iff hn hlen,
    List.append_assoc,
    parseAll_append hsteps _ (Nat.le_refl _) ha, parseAll_append hsteps _ (Nat.le_refl _) ha, hskip]

/-- A group with a number in it, behind a message. -/
theorem PB.Message.unmarshal_unknown_group :
    PB.Message.zero.unmarshal castAny (PB.Message.sample.wire ++
      (Unknown.group (.cons 1 (by decide) (.varint 5) .nil)).wire 6 ++ []) =
        .ok PB.Message.sample := by
  have hlen : ((Unknown.group (.cons 1 (by decide) (.varint 5) .nil)).wire 6).length = 4 := by
    simp [Unknown.wire, Unknown.tag, Unknown.body, Unknown.bodies, Unknown.wireType,
      Varint.encode_small]
  have hplain : PB.Message.zero.unmarshal castAny (PB.Message.sample.wire ++ []) =
      .ok PB.Message.sample := by
    rw [List.append_nil, unmarshal_sample]
  refine (PB.Message.unmarshal_unknown castAny PB.Message.zero PB.Message.sample _ []
    unmarshal_sample 6 (by decide) (by decide) _ ?_ _).mpr hplain
  rw [PB.Message.length_wire, hlen]
  decide

end BitswapAuth
