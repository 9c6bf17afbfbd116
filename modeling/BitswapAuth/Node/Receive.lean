/-
# `BitswapAuth.Node.Receive` — what an incoming message reaches

`Bitswap.receiveBlocksFrom` as one function: the calls it makes on the other
components, in order, and the error it returns.  `Node` has the same function cut
into the steps other goroutines can see; here nothing comes in between, so the
lists it passes on can be compared.

Of a message from the network only the blocks that some session has flagged as
wanted are stored, served and published (`receiveBlocksFrom_only_wanted`); the keys
of all of them go to the peer manager and the sessions.  A write to the blockstore
that fails ends the call before anybody is told.
-/
import BitswapAuth.Node.Node

namespace BitswapAuth

open Lib

/-! ## `receiveBlocksFrom` -/

/-- The calls `receiveBlocksFrom` makes on other components. -/
inductive ReceiveCall where
  | putMany (blks : List AuthBlock)
  | responseReceived (p : PeerID) (ks : List Want)
  | sessionsReceiveFrom (p : PeerID) (ks haves dontHaves : List Want)
  | engineReceiveFrom (p : PeerID) (blks : List AuthBlock)
  | publish (b : AuthBlock)
  | newBlocks (c : Cid)
  deriving DecidableEq

/-- The errors `receiveBlocksFrom` returns. -/
inductive ReceiveErr where
  | bitswapClosed
  | putMany (e : StoreErr)
  | closing
  deriving DecidableEq

/-- What is decided elsewhere: whether the process is closing when the call begins, what
the blockstore answers to a write, and of the blocks to be reprovided how many are
taken before the process closes. -/
structure Surroundings where
  closing : Bool
  putMany : List AuthBlock → Option StoreErr
  provideEnabled : Bool
  closesAfter : Option Nat

namespace Bitswap

/-- The blocks to be reprovided, and the error if the process closes meanwhile. -/
def reprovide (env : Surroundings) (wanted : List AuthBlock) :
    List ReceiveCall × Option ReceiveErr :=
  if env.provideEnabled then
    match env.closesAfter with
    | none => (wanted.map fun b => .newBlocks b.cid, none)
    | some n =>
        ((wanted.take n).map fun b => .newBlocks b.cid,
          if n < wanted.length then some .closing else none)
  else ([], none)

/-- The part of `receiveBlocksFrom` after the blocks are stored. -/
def tellAll (env : Surroundings) (sender : PeerID) (blks wanted : List AuthBlock)
    (haves dontHaves : List Want) : List ReceiveCall × Option ReceiveErr :=
  let allKs := blks.map AuthBlock.want
  let r := reprovide env wanted
  ((if sender = .empty then [] else [.responseReceived sender (allKs ++ haves ++ dontHaves)]) ++
    [.sessionsReceiveFrom sender allKs haves dontHaves, .engineReceiveFrom sender wanted] ++
    wanted.map .publish ++ r.1, r.2)

/-- `receiveBlocksFrom`: its calls, and the error it returns. -/
def receiveBlocksFrom (env : Surroundings) (sim : SessionInterestManager) (sender : PeerID)
    (blks : List AuthBlock) (haves dontHaves : List Want) :
    List ReceiveCall × Option ReceiveErr :=
  if env.closing then ([], some .bitswapClosed)
  else
    let wanted := if sender = .empty then blks else (sim.splitWantedUnwanted blks).1
    if wanted.isEmpty then tellAll env sender blks wanted haves dontHaves
    else
      match env.putMany wanted with
      | some e => ([.putMany wanted], some (.putMany e))
      | none =>
          let r := tellAll env sender blks wanted haves dontHaves
          (.putMany wanted :: r.1, r.2)

end Bitswap

/-! ## What the calls pass on -/

namespace ReceiveCall

/-- The blocks given to the blockstore. -/
def stored : ReceiveCall → List AuthBlock
  | .putMany blks => blks
  | _ => []

/-- The blocks given to the decision engine. -/
def served : ReceiveCall → List AuthBlock
  | .engineReceiveFrom _ blks => blks
  | _ => []

/-- The blocks given to the subscribers. -/
def published : ReceiveCall → List AuthBlock
  | .publish b => [b]
  | _ => []

/-- The call tells somebody of the message: every call but the write. -/
def Tells : ReceiveCall → Prop
  | .putMany _ => False
  | _ => True

end ReceiveCall

namespace Bitswap

variable {env : Surroundings} {wanted : List AuthBlock}

/-- Some first part of the blocks is reprovided. -/
theorem reprovide_calls (env : Surroundings) (wanted : List AuthBlock) :
    ∃ bs : List AuthBlock, (reprovide env wanted).1 = bs.map fun b => .newBlocks b.cid := by
  rw [reprovide]
  split
  · split
    · exact ⟨wanted, rfl⟩
    · exact ⟨_, rfl⟩
  · exact ⟨[], rfl⟩

theorem flatMap_tellAll (f : ReceiveCall → List AuthBlock) (sender : PeerID)
    (blks : List AuthBlock) (haves dontHaves : List Want) (hnew : ∀ c, f (.newBlocks c) = [])
    (hresp : ∀ ks, f (.responseReceived sender ks) = [])
    (hses : ∀ ks hs ds, f (.sessionsReceiveFrom sender ks hs ds) = []) :
    (tellAll env sender blks wanted haves dontHaves).1.flatMap f =
      f (.engineReceiveFrom sender wanted) ++ wanted.flatMap fun b => f (.publish b) := by
  obtain ⟨bs, hbs⟩ := reprovide_calls env wanted
  rw [tellAll]
  dsimp only
  rw [hbs, List.flatMap_append, List.flatMap_append, List.flatMap_append, List.flatMap_map,
    List.flatMap_map]
  split <;> simp [hnew, hresp, hses]

/-- The blockstore refuses the blocks. -/
def Fails (env : Surroundings) (wanted : List AuthBlock) : Prop :=
  wanted ≠ [] ∧ env.putMany wanted ≠ none

/-- What the calls pass on for a message from anybody: the blocks that are wanted. -/
theorem receiveBlocksFrom_calls (env : Surroundings) (sim : SessionInterestManager) (p : PeerID)
    (blks : List AuthBlock) (haves dontHaves : List Want) (hopen : env.closing = false) :
    let calls := (receiveBlocksFrom env sim p blks haves dontHaves).1
    let wanted := if p = .empty then blks else (sim.splitWantedUnwanted blks).1
    calls.flatMap ReceiveCall.stored = wanted ∧
      (¬ Fails env wanted →
        calls.flatMap ReceiveCall.served = wanted ∧ calls.flatMap ReceiveCall.published = wanted) ∧
      (Fails env wanted → ∀ c ∈ calls, ¬ c.Tells) := by
  intro calls wanted
  have hcalls : calls = (receiveBlocksFrom env sim p blks haves dontHaves).1 := rfl
  rw [receiveBlocksFrom, if_neg (by simp [hopen])] at hcalls
  dsimp only at hcalls
  -- what is passed on once the blocks are stored
  have hst : (tellAll env p blks wanted haves dontHaves).1.flatMap ReceiveCall.stored = [] := by
    rw [flatMap_tellAll _ _ _ _ _ (fun _ => rfl) (fun _ => rfl) fun _ _ _ => rfl]
    simp [ReceiveCall.stored]
  have hse : (tellAll env p blks wanted haves dontHaves).1.flatMap ReceiveCall.served = wanted := by
    rw [flatMap_tellAll _ _ _ _ _ (fun _ => rfl) (fun _ => rfl) fun _ _ _ => rfl]
    simp [ReceiveCall.served]
  have hpu : (tellAll env p blks wanted haves dontHaves).1.flatMap ReceiveCall.published =
      wanted := by
    rw [flatMap_tellAll _ _ _ _ _ (fun _ => rfl) (fun _ => rfl) fun _ _ _ => rfl]
    simp [ReceiveCall.published]
  by_cases hw : wanted = []
  · rw [if_pos (List.isEmpty_iff.mpr hw)] at hcalls
    rw [hcalls]
    exact ⟨hst.trans hw.symm, fun _ => ⟨hse, hpu⟩, fun hfail => absurd hw hfail.1⟩
  · rw [if_neg fun h => hw (List.isEmpty_iff.mp h)] at hcalls
    cases hput : env.putMany wanted with
    | some e =>
        rw [hput] at hcalls
        have hfail : Fails env wanted := ⟨hw, by simp [hput]⟩
        rw [hcalls]
        refine ⟨List.append_nil _, fun h => absurd hfail h, fun _ c hc => ?_⟩
        obtain rfl := List.mem_singleton.mp hc
        exact id
    | none =>
        rw [hput] at hcalls
        rw [hcalls]
        refine ⟨?_, fun _ => ⟨hse, hpu⟩, fun hfail => absurd hput hfail.2⟩
        exact (congrArg (wanted ++ ·) hst).trans (List.append_nil wanted)

/-- A process that is closing makes no call. -/
theorem receiveBlocksFrom_closing (sim : SessionInterestManager) (p : PeerID)
    (blks : List AuthBlock) (haves dontHaves : List Want) (hclosing : env.closing = true) :
    (receiveBlocksFrom env sim p blks haves dontHaves).1 = [] := by
  rw [receiveBlocksFrom, if_pos hclosing]

/-- **Only wanted blocks of a message are stored, served and published.**  Unless the
process is closing, the blocks of a message from the network that are given to
the blockstore are those some session has flagged as wanted, in order; so are
those given to the engine and the subscribers, if the write succeeds.  If it
fails, the write is the only call. -/
theorem receiveBlocksFrom_only_wanted (env : Surroundings) (sim : SessionInterestManager)
    (p : PeerID) (hp : p ≠ .empty) (blks : List AuthBlock) (haves dontHaves : List Want) :
    let calls := (receiveBlocksFrom env sim p blks haves dontHaves).1
    let wanted := blks.filter fun b => sim.Flagged b.want
    (calls.flatMap ReceiveCall.stored = if env.closing then [] else wanted) ∧
      (¬ Fails env wanted →
        calls.flatMap ReceiveCall.served = (if env.closing then [] else wanted) ∧
        calls.flatMap ReceiveCall.published = if env.closing then [] else wanted) ∧
      (Fails env wanted → ∀ c ∈ calls, ¬ c.Tells) := by
  intro calls wanted
  cases hclosing : env.closing with
  | true =>
      have hcalls : calls = [] := receiveBlocksFrom_closing sim p blks haves dontHaves hclosing
      rw [hcalls]
      exact ⟨rfl, fun _ => ⟨rfl, rfl⟩, fun _ c hc => absurd hc List.not_mem_nil⟩
  | false =>
      have h := receiveBlocksFrom_calls env sim p blks haves dontHaves hclosing
      rw [if_neg hp, sim.fst_splitWantedUnwanted] at h
      exact h

/-- Of two blocks of one CID only the one under the auth string a session wants is
stored, served and published. -/
theorem receiveBlocksFrom_other_auth :
    let sim := SessionInterestManager.new.recordSessionInterest 1 [⟨⟨[1]⟩, [5]⟩]
    let env : Surroundings := ⟨false, fun _ => none, false, none⟩
    let blks := [AuthBlock.new ⟨⟨[1]⟩, [0]⟩ [4], AuthBlock.new ⟨⟨[1]⟩, [0]⟩ [5]]
    (⟨[7]⟩ : PeerID) ≠ .empty ∧
      (receiveBlocksFrom env sim ⟨[7]⟩ blks [] []).1.flatMap ReceiveCall.stored =
        [AuthBlock.new ⟨⟨[1]⟩, [0]⟩ [5]] := by
  intro sim env blks
  have hp : (⟨[7]⟩ : PeerID) ≠ .empty := by decide
  exact ⟨hp, (receiveBlocksFrom_only_wanted env sim ⟨[7]⟩ hp blks [] []).1.trans
    (by decide)⟩

/-- The blocks a call in progress has to publish in `Node` are the blocks this one
publishes, if the process is not closing and the write does not fail. -/
theorem published_eq (env : Surroundings) (n : Node) (p : PeerID) (blks : List AuthBlock)
    (haves dontHaves : List Want) (hopen : env.closing = false)
    (hput : ¬ Fails env (n.published p blks)) :
    (receiveBlocksFrom env n.sim p blks haves dontHaves).1.flatMap ReceiveCall.published =
      n.published p blks :=
  ((receiveBlocksFrom_calls env n.sim p blks haves dontHaves hopen).2.1 hput).2

end Bitswap

end BitswapAuth
