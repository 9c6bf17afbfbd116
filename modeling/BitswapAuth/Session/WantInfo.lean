/-
# `BitswapAuth.Session.WantInfo` — who has a block, and whom to ask next

Three small pieces of a session.  `BlockPresenceManager` is shared by all
sessions and remembers, by CID, which peers said HAVE or DONT_HAVE.
`SessionPeerManager` holds the peers of one session.  `wantInfo` is what a
session knows about one want: a presence for each peer, the peer that was asked
for the block, and the best peer to ask next.

The best peer is computed in two loops over a map and a random draw, so it is
not a function of the presences; what is certain about it is `BestOf`, and a
`WantInfo` carries that.
-/
import BitswapAuth.Auth

namespace BitswapAuth

open Lib

/-! ## The block presence manager -/

/-- `BlockPresenceManager`. -/
structure BlockPresenceManager where
  presence : GoMap Cid (GoMap PeerID Bool)

namespace BlockPresenceManager

/-- `New`. -/
def new : BlockPresenceManager := ⟨∅⟩

/-- What the peer last said of the block. -/
def find (bpm : BlockPresenceManager) (p : PeerID) (c : Cid) : Option Bool :=
  (bpm.presence.lookup c).bind (·.lookup p)

/-- `updateBlockPresence`. -/
def updateBlockPresence (bpm : BlockPresenceManager) (p : PeerID) (c : Cid) (present : Bool) :
    BlockPresenceManager :=
  let ps := (bpm.presence.lookup c).getD ∅
  -- a HAVE is not changed to DONT_HAVE
  if ps.lookup p = some true then bpm
  else ⟨bpm.presence.insert c (ps.insert p present)⟩

/-- `ReceiveFrom`. -/
def receiveFrom (bpm : BlockPresenceManager) (p : PeerID) (haves dontHaves : List Want) :
    BlockPresenceManager :=
  let bpm := haves.foldl (fun b w => b.updateBlockPresence p w.cid true) bpm
  dontHaves.foldl (fun b w => b.updateBlockPresence p w.cid false) bpm

/-- `PeerHasBlock`. -/
def peerHasBlock (bpm : BlockPresenceManager) (p : PeerID) (c : Cid) : Bool :=
  (bpm.find p c).getD false

/-- `PeerDoesNotHaveBlock`. -/
def peerDoesNotHaveBlock (bpm : BlockPresenceManager) (p : PeerID) (c : Cid) : Bool :=
  bpm.find p c = some false

/-- `allDontHave`. -/
def allDontHave (bpm : BlockPresenceManager) (peers : List PeerID) (c : Cid) : Bool :=
  match bpm.presence.lookup c with
  | none => false
  | some ps => peers.all fun p => ps.lookup p = some false

/-- `AllPeersDoNotHaveBlock`. -/
def allPeersDoNotHaveBlock (bpm : BlockPresenceManager) (peers : List PeerID) (ws : List Want) :
    List Want :=
  ws.filter fun w => bpm.allDontHave peers w.cid

/-- `RemoveKeys`. -/
def removeKeys (bpm : BlockPresenceManager) (ws : List Want) : BlockPresenceManager :=
  ⟨ws.foldl (fun m w => m.erase w.cid) bpm.presence⟩

theorem allDontHave_eq_true {bpm : BlockPresenceManager} {peers : List PeerID} {c : Cid}
    (hne : peers ≠ []) :
    bpm.allDontHave peers c = true ↔ ∀ p ∈ peers, bpm.peerDoesNotHaveBlock p c = true := by
  unfold allDontHave peerDoesNotHaveBlock find
  cases bpm.presence.lookup c with
  | none =>
      obtain ⟨p, hp⟩ := List.exists_mem_of_ne_nil peers hne
      simp only [Option.bind_none, reduceCtorEq, decide_false, Bool.false_eq_true, false_iff]
      intro h
      exact h p hp
  | some ps => simp [List.all_eq_true]

end BlockPresenceManager

/-- `BlockPresence`, from the worst to the best. -/
inductive BlockPresence where
  | BPDontHave
  | BPUnknown
  | BPHave
  deriving DecidableEq

/-- The number the source has for a presence. -/
def BlockPresence.rank : BlockPresence → Nat
  | .BPDontHave => 0
  | .BPUnknown => 1
  | .BPHave => 2

/-- The presence that the manager's record amounts to. -/
def BlockPresenceManager.presenceOf (bpm : BlockPresenceManager) (p : PeerID) (c : Cid) :
    BlockPresence :=
  if bpm.peerHasBlock p c then .BPHave
  else if bpm.peerDoesNotHaveBlock p c then .BPDontHave
  else .BPUnknown

/-! ## The peers of a session -/

/-- `SessionPeerManager`, with the marks it has put on peers at the connection
manager. -/
structure SessionPeerManager where
  peers : GoSet PeerID
  peersDiscovered : Bool
  tagged : GoSet PeerID
  guarded : GoSet PeerID

namespace SessionPeerManager

/-- `New`. -/
def new : SessionPeerManager := ⟨∅, false, ∅, ∅⟩

/-- `AddPeer`, and whether the peer is a new one. -/
def addPeer (spm : SessionPeerManager) (p : PeerID) : SessionPeerManager × Bool :=
  if spm.peers.has p then (spm, false)
  else
    ({ spm with
        peers := spm.peers.add p, peersDiscovered := true, tagged := spm.tagged.add p }, true)

/-- `ProtectConnection`. -/
def protectConnection (spm : SessionPeerManager) (p : PeerID) : SessionPeerManager :=
  if spm.peers.has p then { spm with guarded := spm.guarded.add p } else spm

/-- `RemovePeer`, and whether the peer was there. -/
def removePeer (spm : SessionPeerManager) (p : PeerID) : SessionPeerManager × Bool :=
  if spm.peers.has p then
    ({ spm with
        peers := spm.peers.remove p, tagged := spm.tagged.remove p
        guarded := spm.guarded.remove p }, true)
  else (spm, false)

theorem addPeer_of_notMem {spm : SessionPeerManager} {p : PeerID} (h : p ∉ spm.peers) :
    spm.addPeer p =
      ({ spm with
          peers := spm.peers.add p, peersDiscovered := true, tagged := spm.tagged.add p }, true) :=
  if_neg fun h' => h (GoSet.has_eq_true.mp h')

theorem addPeer_of_mem {spm : SessionPeerManager} {p : PeerID} (h : p ∈ spm.peers) :
    spm.addPeer p = (spm, false) :=
  if_pos (GoSet.has_eq_true.mpr h)

theorem removePeer_of_mem {spm : SessionPeerManager} {p : PeerID} (h : p ∈ spm.peers) :
    spm.removePeer p =
      ({ spm with
          peers := spm.peers.remove p, tagged := spm.tagged.remove p
          guarded := spm.guarded.remove p }, true) :=
  if_pos (GoSet.has_eq_true.mpr h)

theorem removePeer_of_notMem {spm : SessionPeerManager} {p : PeerID} (h : p ∉ spm.peers) :
    spm.removePeer p = (spm, false) :=
  if_neg fun h' => h (GoSet.has_eq_true.mp h')

/-- `HasPeers`. -/
def hasPeers (spm : SessionPeerManager) : Bool := spm.peers.len > 0

theorem hasPeers_eq_true {spm : SessionPeerManager} :
    spm.hasPeers = true ↔ ∃ p, p ∈ spm.peers := by
  rw [hasPeers, decide_eq_true_iff, gt_iff_lt, Nat.pos_iff_ne_zero, GoMap.len_ne_zero]

end SessionPeerManager

/-! ## Choosing among peers -/

/-- What the runtime leaves open when a best peer is computed: the orders of the
two loops, and whether the sum of the first shares of the total, as it is
rounded, exceeds the random number. -/
structure Draw where
  first : RangeOrder
  second : RangeOrder
  exceeds : List Nat → Nat → Bool

/-- The draw that keeps the stored order and takes the first candidate. -/
def Draw.plain : Draw := ⟨.stored, .stored, fun _ _ => true⟩

/-- `peerResponseTracker`. -/
structure PeerResponseTracker where
  firstResponder : GoMap PeerID Nat

namespace PeerResponseTracker

/-- `newPeerResponseTracker`. -/
def new : PeerResponseTracker := ⟨∅⟩

/-- `receivedBlockFrom`. -/
def receivedBlockFrom (prt : PeerResponseTracker) (p : PeerID) : PeerResponseTracker :=
  ⟨prt.firstResponder.insert p (prt.firstResponder.getD p 0 + 1)⟩

/-- `getPeerCount`. -/
def getPeerCount (prt : PeerResponseTracker) (p : PeerID) : Nat := prt.firstResponder.getD p 1

/-- The loop of `choose`: the first peer at which the sum exceeds the number. -/
def pick (prt : PeerResponseTracker) (d : Draw) (total : Nat) :
    List Nat → List PeerID → Option PeerID
  | _, [] => none
  | counted, p :: ps =>
      let counted := counted ++ [prt.getPeerCount p]
      if d.exceeds counted total then some p else prt.pick d total counted ps

/-- `choose`. -/
def choose (prt : PeerResponseTracker) (d : Draw) (peers : List PeerID) : PeerID :=
  let total := peers.foldl (fun total p => total + prt.getPeerCount p) 0
  -- the last peer, should rounding leave the sum below the number
  (prt.pick d total [] peers).getD (peers.getLast?.getD .empty)

theorem mem_of_pick {prt : PeerResponseTracker} {d : Draw} {total : Nat} {p : PeerID} :
    ∀ (ps : List PeerID) (counted : List Nat), prt.pick d total counted ps = some p → p ∈ ps
  | [], _, h => by simp [pick] at h
  | q :: ps, counted, h => by
      rw [pick] at h
      split at h
      · obtain rfl := Option.some.inj h
        exact List.mem_cons_self
      · exact List.mem_cons_of_mem q (mem_of_pick ps _ h)

theorem choose_mem (prt : PeerResponseTracker) (d : Draw) {peers : List PeerID}
    (hne : peers ≠ []) : prt.choose d peers ∈ peers := by
  rw [choose]
  cases hp : prt.pick d (peers.foldl (fun total p => total + prt.getPeerCount p) 0) [] peers with
  | some p => exact mem_of_pick peers [] hp
  | none =>
      rw [List.getLast?_eq_some_getLast hne]
      exact List.getLast_mem hne

end PeerResponseTracker

/-! ## The best peer -/

/-- The variables of the first loop of `calculateBestPeer`. -/
structure BestSoFar where
  bestBP : BlockPresence
  bestPeer : PeerID
  countWithBest : Nat

/-- One round of the first loop. -/
def BestSoFar.visit (s : BestSoFar) (e : PeerID × BlockPresence) : BestSoFar :=
  if e.2.rank > s.bestBP.rank then ⟨e.2, e.1, 1⟩
  else if e.2 = s.bestBP then { s with countWithBest := s.countWithBest + 1 }
  else s

/-- What `calculateBestPeer` assigns to `bestPeer`. -/
def calculateBestPeer (prt : PeerResponseTracker) (d : Draw)
    (blockPresence : GoMap PeerID BlockPresence) : PeerID :=
  let s := (d.first.range blockPresence.pairs).foldl BestSoFar.visit ⟨.BPDontHave, .empty, 0⟩
  if s.bestPeer = .empty then .empty
  else if s.countWithBest ≤ 1 then s.bestPeer
  else
    prt.choose d
      (((d.second.range blockPresence.pairs).filter fun e => e.2 = s.bestBP).map Prod.fst)

/-- What is certain of a best peer: one that is named is known and no peer has a
better presence than it, and none is named only if no peer is better than
DONT_HAVE (the empty ID apart, which names nobody). -/
structure BestOf (blockPresence : GoMap PeerID BlockPresence) (best : PeerID) : Prop where
  named : best ≠ .empty → ∃ bp, blockPresence.lookup best = some bp ∧ bp ≠ .BPDontHave ∧
    ∀ q b, blockPresence.lookup q = some b → b.rank ≤ bp.rank
  nobody : best = .empty → .empty ∉ blockPresence →
    ∀ q b, blockPresence.lookup q = some b → b = .BPDontHave

/-- The first loop after the entries `seen`: the best presence of them, and a
peer that has it once it is better than DONT_HAVE. -/
structure BestSoFar.Of (seen : List (PeerID × BlockPresence)) (s : BestSoFar) : Prop where
  most : ∀ e ∈ seen, e.2.rank ≤ s.bestBP.rank
  found : s.bestBP ≠ .BPDontHave → (s.bestPeer, s.bestBP) ∈ seen
  start : s.bestBP = .BPDontHave → s.bestPeer = .empty

theorem BestSoFar.Of.visit {seen : List (PeerID × BlockPresence)} {s : BestSoFar}
    (h : s.Of seen) (e : PeerID × BlockPresence) : (s.visit e).Of (seen ++ [e]) := by
  rw [BestSoFar.visit]
  split
  · rename_i hlt
    refine ⟨?_, fun _ => by simp, fun h0 => ?_⟩
    · intro e' he'
      rcases List.mem_append.mp he' with he' | he'
      · exact (h.most e' he').trans hlt.le
      · rw [List.mem_singleton.mp he']
    · rw [show e.2 = .BPDontHave from h0] at hlt
      exact absurd hlt (Nat.not_lt_zero _)
  · rename_i hle
    have hmost : ∀ e' ∈ seen ++ [e], e'.2.rank ≤ s.bestBP.rank := by
      intro e' he'
      rcases List.mem_append.mp he' with he' | he'
      · exact h.most e' he'
      · rw [List.mem_singleton.mp he']
        exact not_lt.mp hle
    have hfound : s.bestBP ≠ .BPDontHave → (s.bestPeer, s.bestBP) ∈ seen ++ [e] :=
      fun hne => List.mem_append_left _ (h.found hne)
    split <;> exact ⟨hmost, hfound, h.start⟩

theorem BestSoFar.Of.foldl : ∀ (l : List (PeerID × BlockPresence)) {seen : List _}
    {s : BestSoFar}, s.Of seen → (l.foldl BestSoFar.visit s).Of (seen ++ l)
  | [], seen, s, h => by simpa using h
  | e :: l, seen, s, h => by
      have ih := BestSoFar.Of.foldl l (h.visit e)
      rwa [List.append_assoc] at ih

theorem BlockPresence.eq_dontHave_of_rank {b : BlockPresence} (h : b.rank ≤ 0) :
    b = .BPDontHave := by
  cases b with
  | BPDontHave => rfl
  | BPUnknown => exact absurd h (by decide)
  | BPHave => exact absurd h (by decide)

/-- The second pass collects the peers of one block presence. -/
theorem mem_filter_presence {m : GoMap PeerID BlockPresence} {o : RangeOrder} {b : BlockPresence}
    {q : PeerID} : q ∈ ((o.range m.pairs).filter fun e => e.2 = b).map Prod.fst ↔
      m.lookup q = some b := by
  simp only [List.mem_map, List.mem_filter, RangeOrder.mem_range, decide_eq_true_eq]
  constructor
  · rintro ⟨e, ⟨he, hbp⟩, rfl⟩
    rw [← hbp]
    exact GoMap.mem_pairs.mp he
  · intro h
    exact ⟨(q, b), ⟨GoMap.mem_pairs.mpr h, rfl⟩, rfl⟩

theorem bestOf_calculateBestPeer (prt : PeerResponseTracker) (d : Draw)
    (m : GoMap PeerID BlockPresence) : BestOf m (calculateBestPeer prt d m) := by
  have hof : (BestSoFar.mk .BPDontHave .empty 0).Of [] := ⟨by simp, by simp, fun _ => rfl⟩
  have hs := hof.foldl (d.first.range m.pairs)
  unfold calculateBestPeer
  set s := (d.first.range m.pairs).foldl BestSoFar.visit ⟨.BPDontHave, .empty, 0⟩
  rw [List.nil_append] at hs
  have hmost : ∀ q b, m.lookup q = some b → b.rank ≤ s.bestBP.rank := fun q b hq =>
    hs.most (q, b) (RangeOrder.mem_range.mpr (GoMap.mem_pairs.mpr hq))
  have hfound : s.bestBP ≠ .BPDontHave → m.lookup s.bestPeer = some s.bestBP := fun hne =>
    GoMap.mem_pairs.mp (RangeOrder.mem_range.mp (hs.found hne))
  dsimp only
  by_cases hnone : s.bestPeer = .empty
  · rw [if_pos hnone]
    refine ⟨fun h => absurd rfl h, fun _ hempty q b hq => ?_⟩
    have hbp : s.bestBP = .BPDontHave := by
      by_contra hne
      exact hempty (hnone ▸ GoMap.mem_of_lookup (hfound hne))
    have := hmost q b hq
    rw [hbp] at this
    exact BlockPresence.eq_dontHave_of_rank this
  · have hne : s.bestBP ≠ .BPDontHave := fun h => hnone (hs.start h)
    rw [if_neg hnone]
    by_cases hcount : s.countWithBest ≤ 1
    · rw [if_pos hcount]
      exact ⟨fun _ => ⟨s.bestBP, hfound hne, hne, hmost⟩, fun h => absurd h hnone⟩
    · rw [if_neg hcount]
      have hmem := (@mem_filter_presence m d.second _ _).mpr (hfound hne)
      have hchosen := mem_filter_presence.mp (prt.choose_mem d (List.ne_nil_of_mem hmem))
      refine ⟨fun _ => ⟨s.bestBP, hchosen, hne, hmost⟩, fun h0 hempty => ?_⟩
      -- the empty ID was drawn, so it was among the known ones
      rw [h0] at hchosen
      exact absurd (GoMap.mem_of_lookup hchosen) hempty

/-! ## `wantInfo` -/

/-- `wantInfo`.  The response tracker is the session's; the methods are given
it. -/
structure WantInfo where
  blockPresence : GoMap PeerID BlockPresence
  sentTo : PeerID
  bestPeer : PeerID
  exhausted : Bool
  best : BestOf blockPresence bestPeer

namespace WantInfo

/-- `newWantInfo`. -/
def new : WantInfo where
  blockPresence := ∅
  sentTo := .empty
  bestPeer := .empty
  exhausted := false
  best := ⟨fun h => absurd rfl h, fun _ _ q b h => by simp at h⟩

/-- `setPeerBlockPresence`. -/
def setPeerBlockPresence (wi : WantInfo) (prt : PeerResponseTracker) (d : Draw) (p : PeerID)
    (bp : BlockPresence) : WantInfo where
  blockPresence := wi.blockPresence.insert p bp
  sentTo := wi.sentTo
  bestPeer := calculateBestPeer prt d (wi.blockPresence.insert p bp)
  -- exhausted means that no peer has the block
  exhausted := if bp = .BPHave then false else wi.exhausted
  best := bestOf_calculateBestPeer prt d _

/-- `removePeer`. -/
def removePeer (wi : WantInfo) (prt : PeerResponseTracker) (d : Draw) (p : PeerID) :
    WantInfo where
  blockPresence := wi.blockPresence.erase p
  -- no longer wait for the peer
  sentTo := if p = wi.sentTo then .empty else wi.sentTo
  bestPeer := calculateBestPeer prt d (wi.blockPresence.erase p)
  exhausted := wi.exhausted
  best := bestOf_calculateBestPeer prt d _

/-! ## Runs -/

/-- The calls that change the presences.  The response tracker is as it is at the time of the
call, and the draw is any. -/
inductive PresenceCall where
  | setPeerBlockPresence (p : PeerID) (bp : BlockPresence) (prt : PeerResponseTracker) (d : Draw)
  | removePeer (p : PeerID) (prt : PeerResponseTracker) (d : Draw)

def PresenceCall.peer : PresenceCall → PeerID
  | .setPeerBlockPresence p _ _ _ | .removePeer p _ _ => p

def call (wi : WantInfo) : PresenceCall → WantInfo
  | .setPeerBlockPresence p bp prt d => wi.setPeerBlockPresence prt d p bp
  | .removePeer p prt d => wi.removePeer prt d p

theorem empty_notMem_call (wi : WantInfo) (c : PresenceCall) (hc : c.peer ≠ .empty)
    (h : .empty ∉ wi.blockPresence) : .empty ∉ (wi.call c).blockPresence := by
  cases c with
  | setPeerBlockPresence p bp prt d =>
      intro hin
      rcases (AList.mem_insert _).mp hin with he | hin
      · exact hc he.symm
      · exact h hin
  | removePeer p prt d => exact fun hin => h (AList.mem_erase.mp hin).2

theorem empty_notMem_run : ∀ (cs : List PresenceCall) {wi : WantInfo},
    (∀ c ∈ cs, c.peer ≠ .empty) → .empty ∉ wi.blockPresence →
      .empty ∉ (run call wi cs).blockPresence
  | [], _, _, h => h
  | c :: cs, wi, hcs, h => by
      obtain ⟨hc, hcs⟩ := List.forall_mem_cons.mp hcs
      exact empty_notMem_run cs hcs (empty_notMem_call wi c hc h)

/-- **The best peer is a best peer** after any calls: none is named just if no known peer is
better than DONT_HAVE, and one that is named is known and has the best presence of all. -/
theorem bestPeer_best (cs : List PresenceCall) (hcs : ∀ c ∈ cs, c.peer ≠ .empty) :
    ((run call new cs).bestPeer = .empty ↔
      ∀ q b, (run call new cs).blockPresence.lookup q = some b →
        ¬ BlockPresence.BPDontHave.rank < b.rank) ∧
    ((run call new cs).bestPeer ≠ .empty →
      ∃ bp, (run call new cs).blockPresence.lookup (run call new cs).bestPeer = some bp ∧
        ∀ q b, (run call new cs).blockPresence.lookup q = some b → b.rank ≤ bp.rank) := by
  have hempty := @empty_notMem_run cs new hcs (AList.notMem_empty _)
  have hbest := (run call new cs).best
  refine ⟨⟨fun h q b hq => ?_, fun h => ?_⟩, fun h => ?_⟩
  · rw [hbest.nobody h hempty q b hq]
    exact Nat.lt_irrefl _
  · by_contra hne
    obtain ⟨bp, hbp, hgood, -⟩ := hbest.named hne
    exact hgood (BlockPresence.eq_dontHave_of_rank (not_lt.mp (h _ bp hbp)))
  · obtain ⟨bp, hbp, -, hmost⟩ := hbest.named h
    exact ⟨bp, hbp, hmost⟩

/-- Of two peers that sent a HAVE one is the best; once it is removed the other is. -/
theorem bestPeer_best_of_two :
    let cs : List PresenceCall := [.setPeerBlockPresence ⟨[1]⟩ .BPHave .new .plain,
      .setPeerBlockPresence ⟨[2]⟩ .BPUnknown .new .plain,
      .setPeerBlockPresence ⟨[3]⟩ .BPHave .new .plain, .removePeer ⟨[3]⟩ .new .plain]
    (∀ c ∈ cs, c.peer ≠ .empty) ∧ (run call new cs).bestPeer = ⟨[1]⟩ ∧
      ∃ bp, (run call new cs).blockPresence.lookup ⟨[1]⟩ = some bp ∧
        ∀ q b, (run call new cs).blockPresence.lookup q = some b → b.rank ≤ bp.rank := by
  intro cs
  have hcs : ∀ c ∈ cs, c.peer ≠ .empty := by
    simp [cs, PresenceCall.peer, PeerID.empty]
  have hbest : (run call new cs).bestPeer = ⟨[1]⟩ := by decide
  obtain ⟨-, hmax⟩ := bestPeer_best cs hcs
  rw [hbest] at hmax
  exact ⟨hcs, hbest, hmax (by decide)⟩

end WantInfo

end BitswapAuth
