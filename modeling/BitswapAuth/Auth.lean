/-
# `BitswapAuth.Auth` — wants, blocks and the authenticated blockstore

The package `auth` of the source.  A want is a CID together with the auth
string that is to release its block, and every table of the program that was
keyed by CID is keyed by want here; where a table is still keyed by CID alone,
two wants of one block share an entry, and that is where the later modules
find the two levels disagreeing.

Strings of the source are byte sequences, so `cid.Cid`, `peer.ID` and auth
strings are too: the undefined CID and the absent peer are the empty ones.
-/
import BitswapAuth.Lib.Map

namespace BitswapAuth

open Lib

/-- A string or byte slice of the source. -/
abbrev Bytes := List UInt8

/-- A moment of the clock, in nanoseconds. -/
abbrev Time := Nat

/-- `time.Millisecond`. -/
def millisecond : Nat := 1000000

/-- `cid.Cid`: the bytes of the identifier. -/
structure Cid where
  str : Bytes
  deriving DecidableEq, Repr

/-- `Cid.Defined`. -/
def Cid.defined (c : Cid) : Bool := c.str ≠ []

/-- `peer.ID`. -/
structure PeerID where
  str : Bytes
  deriving DecidableEq, Repr

/-- The empty peer ID, the source's word for no peer. -/
def PeerID.empty : PeerID := ⟨[]⟩

/-- `auth.Want`. -/
structure Want where
  cid : Cid
  auth : Bytes
  deriving DecidableEq, Repr

/-- `auth.Undef`. -/
def Want.undefined : Want := ⟨⟨[]⟩, []⟩

/-- `Want.Defined`. -/
def Want.defined (w : Want) : Bool := w.cid.defined

/-- `blocks.Block`, by its two accessors. -/
structure Block where
  cid : Cid
  rawData : Bytes
  deriving DecidableEq, Repr

/-- `auth.AuthBlockImpl`: a block and the want it answers. -/
structure AuthBlock where
  want : Want
  block : Block
  deriving DecidableEq, Repr

/-- `auth.NewBlock`. -/
def AuthBlock.new (block : Block) (a : Bytes) : AuthBlock := ⟨⟨block.cid, a⟩, block⟩

/-- `AuthBlockImpl.Size`. -/
def AuthBlock.size (b : AuthBlock) : Nat := b.block.rawData.length

/-! ## Blockstores -/

/-- The errors the blockstores of the source tell apart. -/
inductive StoreErr where
  | notFound
  | unauthorised
  | other
  deriving DecidableEq, Repr

/-- The underlying blockstore, a third-party interface: the lookups the
program makes in it. -/
structure Blockstore where
  has : Cid → Except StoreErr Bool
  get : Cid → Except StoreErr Block
  getSize : Cid → Except StoreErr Nat

/-- The blockstore that holds the given data, and answers for it. -/
def Blockstore.ofContent (m : GoMap Cid Bytes) : Blockstore where
  has c := .ok (decide (c ∈ m))
  get c := match m.lookup c with
    | some d => .ok ⟨c, d⟩
    | none => .error .notFound
  getSize c := match m.lookup c with
    | some d => .ok d.length
    | none => .error .notFound

/-- `auth.AuthedBlockstore`. -/
structure AuthedBlockstore where
  source : Blockstore
  allow : Cid → Bytes → PeerID → Bytes → Bool

namespace AuthedBlockstore

/-- `AuthedBlockstore.Get`. -/
def get (bs : AuthedBlockstore) (c : Cid) (remote : PeerID) (auth : Bytes) :
    Except StoreErr Block :=
  match bs.source.has c with
  | .error e => .error e
  | .ok false => .error .notFound
  | .ok true =>
      match bs.source.get c with
      | .error _ => .error .unauthorised
      | .ok block =>
          if bs.allow c block.rawData remote auth then .ok block else .error .unauthorised

/-- `AuthedBlockstore.GetSize`: neither the peer nor an auth string is asked
for. -/
def getSize (bs : AuthedBlockstore) (c : Cid) : Except StoreErr Nat := bs.source.getSize c

/-- A block that `get` releases is the stored one, and `allow` released it to
that peer under that auth string. -/
theorem get_eq_ok {bs : AuthedBlockstore} {c : Cid} {p : PeerID} {a : Bytes} {b : Block} :
    bs.get c p a = .ok b ↔
      bs.source.has c = .ok true ∧ bs.source.get c = .ok b ∧ bs.allow c b.rawData p a = true := by
  rw [get]
  cases hh : bs.source.has c with
  | error e => simp
  | ok l =>
      cases l with
      | false => simp
      | true =>
          cases hg : bs.source.get c with
          | error e => simp
          | ok b' =>
              by_cases ha : bs.allow c b'.rawData p a = true
              · simp only [ha, if_true, Except.ok.injEq, true_and]
                constructor
                · rintro rfl; exact ⟨rfl, ha⟩
                · rintro ⟨h, _⟩; exact h
              · simp only [ha]
                constructor
                · intro h; exact absurd h (by simp)
                · rintro ⟨_, h, h'⟩
                  obtain rfl : b' = b := by simpa using h
                  exact absurd h' ha

end AuthedBlockstore

end BitswapAuth
