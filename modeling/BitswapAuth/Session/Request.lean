/-
# `BitswapAuth.Session.Request` — a call of `GetBlocks`

`AsyncGetBlocks` and `handleIncoming`, with the subscription they listen to.  The
caller of `GetBlocks` gets blocks from a channel; behind it a subscription to the
CIDs of the wants is made, an operation with the wants is sent to the session,
and a goroutine passes on what the subscription brings and keeps the set of CIDs
that remain.  When the goroutine ends, because everything came or because the
context of the call or of the session is done, it sends the session a cancel
operation with the remaining CIDs.

Of the pubsub library it is assumed that a publication under a key is delivered
once to every subscription that lists the key and has not yet received it, and
that the channel of a subscription is closed when all its keys have been
received.  A subscription is by CID, the wants are not.
-/
import BitswapAuth.PeerManager.Manager

namespace BitswapAuth

open Lib

/-- `AuthBlockImpl.Cid`. -/
def AuthBlock.cid (b : AuthBlock) : Cid := b.block.cid

/-- A call of `GetBlocks`. -/
structure Request where
  session : SessionID
  wants : List Want
  -- the keys of the subscription that nothing was received for, and whether it still stands
  keys : GoSet Cid
  listening : Bool
  -- the channel from the subscription
  promise : List AuthBlock
  remaining : GoSet Cid
  -- the want operation was sent; the goroutine was started
  asked : Bool
  started : Bool
  -- the blocks the caller got, and whether its channel is closed
  out : List AuthBlock
  closed : Bool
  -- the context of the call is done
  cancelled : Bool

namespace Request

/-- The CIDs of a list of wants. -/
def cidsOf (wants : List Want) : GoSet Cid := GoSet.ofList (wants.map Want.cid)

/-- `AsyncGetBlocks` up to the sending of the want operation. -/
def subscribe (session : SessionID) (wants : List Want) : Request where
  session := session
  wants := wants
  keys := cidsOf wants
  listening := true
  promise := []
  remaining := cidsOf wants
  asked := false
  started := false
  out := []
  closed := false
  cancelled := false

/-- A block is published. -/
def publish (b : AuthBlock) (r : Request) : Request :=
  if r.listening = true ∧ b.cid ∈ r.keys then
    { r with keys := r.keys.remove b.cid, promise := r.promise ++ [b] }
  else r

/-- One block taken by `handleIncoming` and passed to the caller. -/
def deliver (r : Request) : Request :=
  match r.promise with
  | [] => r
  | b :: promise =>
      { r with promise := promise, remaining := r.remaining.remove b.cid, out := r.out ++ [b] }

/-- The CIDs that remain when `handleIncoming` returns.  A block may be lost: it is
taken, and the context is done before the caller receives it. -/
def left (r : Request) (lost : Bool) : GoSet Cid :=
  match lost, r.promise with
  | true, b :: _ => r.remaining.remove b.cid
  | _, _ => r.remaining

/-- `handleIncoming` returns. -/
def close (r : Request) (lost : Bool) : Request :=
  { r with remaining := r.left lost, closed := true, listening := false }

/-- Everything the subscription brings has been taken. -/
def Exhausted (r : Request) : Prop := r.keys.len = 0 ∧ r.promise = []

instance (r : Request) : Decidable r.Exhausted := inferInstanceAs (Decidable (_ ∧ _))

/-- The caller has got a block for every want, and the channel is closed. -/
def Completed (r : Request) : Prop :=
  r.closed = true ∧ ∀ w ∈ r.wants, ∃ b ∈ r.out, b.cid = w.cid

instance (r : Request) : Decidable r.Completed := inferInstanceAs (Decidable (_ ∧ _))

/-- The call is open, and asks the session for the want. -/
def Asks (sid : SessionID) (w : Want) (r : Request) : Prop :=
  r.session = sid ∧ r.closed = false ∧ w ∈ r.wants

instance (sid : SessionID) (w : Want) (r : Request) : Decidable (r.Asks sid w) :=
  inferInstanceAs (Decidable (_ ∧ _ ∧ _))

theorem mem_cidsOf {wants : List Want} {c : Cid} :
    c ∈ cidsOf wants ↔ ∃ w ∈ wants, w.cid = c := by
  rw [cidsOf]
  rw [GoSet.mem_ofList, List.mem_map]

end Request

end BitswapAuth
