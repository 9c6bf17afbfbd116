/-
# `BitswapAuth.PeerManager.ReverseIndex` — the index from wants to peers

`wantPeers` says for every want which peers were sent it, and the records of the peers say for
every peer which wants it was sent.  Each operation changes both:

    addPeer              a record that has nothing
    removePeer           the two sets of the record, want by want, then the record
    broadcastWantHaves   neither
    sendWants            one want at a time, in a record and on the index
    sendCancels          the records of the peers it looks at; on the index whole entries

The index loses an entry with its last peer, and `getWants` relies on that: it lists the keys of
the index without looking at their sets.  Nothing is assumed of the arguments, the keys of a
cancel may be repeated.
-/
import BitswapAuth.PeerManager.Gauges

namespace BitswapAuth

open Lib

namespace PeerWantManager

variable {pwm : PeerWantManager}

theorem nonemptySets_addPeer (p : PeerID) (o : RangeOrder) (h : pwm.wantPeers.NonemptySets) :
    (pwm.addPeer p o).1.wantPeers.NonemptySets := by
  rw [addPeer]
  split <;> exact h

theorem oneForm_sendWants (p : PeerID) (bs hs : List Want) (h : pwm.OneForm) :
    (pwm.sendWants p bs hs).1.OneForm := by
  rw [sendWants]
  split
  · let I : PeerWantManager × List Want → Prop := fun s => s.1.OneForm
    have hb := run_invariant (I := I) (oneForm_sendWantBlock p) bs (s := (pwm, [])) h
    exact run_invariant (I := I) (oneForm_sendWantHave p) hs (s := (_, [])) hb
  · exact h

theorem Indexed.broadcastWantHaves (h : pwm.Indexed) (ws : List Want) (o : RangeOrder) :
    (pwm.broadcastWantHaves ws o).1.Indexed := by
  have hs := foldl_recordBroadcast_spec ws (pwm, [])
  refine ⟨indexExact_broadcastWantHaves ws o h.index, ?_, ?_⟩
  · show (ws.foldl recordBroadcast (pwm, [])).1.wantPeers.NonemptySets
    rw [hs.wantPeers]
    exact h.nonempty
  · intro p pws w hp
    have hp' : (ws.foldl recordBroadcast (pwm, [])).1.peerWants.lookup p = some pws := hp
    rw [hs.peerWants] at hp'
    exact h.oneForm p pws w hp'

theorem indexed_step (pwm : PeerWantManager) (op : Op) (h : pwm.Indexed) :
    (pwm.step op).Indexed := by
  cases op with
  | addPeer p o =>
      exact ⟨indexExact_addPeer p o h.index, nonemptySets_addPeer p o h.nonempty,
        oneForm_addPeer p o h.oneForm⟩
  | removePeer p ob oh =>
      exact ⟨(removePeer_spec p ob oh h.index).1, nonemptySets_removePeer p ob oh h.nonempty,
        oneForm_removePeer p ob oh h.index h.oneForm⟩
  | broadcastWantHaves ws o => exact h.broadcastWantHaves ws o
  | sendWants p bs hs =>
      exact ⟨indexExact_sendWants p bs hs h.index, nonemptySets_sendWants p bs hs h.nonempty,
        oneForm_sendWants p bs hs h.oneForm⟩
  | sendCancels ks o =>
      exact ⟨indexExact_sendCancels ks o h.index, nonemptySets_sendCancels ks o h.nonempty,
        oneForm_sendCancels ks o h.index h.oneForm⟩

theorem indexed_run (ops : List Op) : (run step new ops).Indexed :=
  run_invariant indexed_step ops exact_new.toIndexed

/-! ## The local wantlist -/

/-- The wants of the index are those that some record has. -/
theorem Indexed.mem_wantPeers (h : pwm.Indexed) {w : Want} :
    w ∈ pwm.wantPeers ↔ ∃ p pws, pwm.peerWants.lookup p = some pws ∧ pws.has w = true := by
  constructor
  · intro hw
    obtain ⟨p, hp⟩ := h.nonempty w hw
    exact ⟨p, (h.index w p).mp hp⟩
  · rintro ⟨p, hp⟩
    obtain ⟨s, hs, -⟩ := (h.index w p).mpr hp
    exact GoMap.mem_of_lookup hs

theorem nodup_getWants (pwm : PeerWantManager) (ob ow : RangeOrder) :
    (pwm.getWants ob ow).Nodup := by
  have hb : (ob.range pwm.broadcastWants.keys).Nodup :=
    RangeOrder.nodup_range.mpr pwm.broadcastWants.keys_nodup
  have hw : (ow.range pwm.wantPeers.keys).Nodup :=
    RangeOrder.nodup_range.mpr pwm.wantPeers.keys_nodup
  refine List.Nodup.append hb (hw.filter _) fun w hin hin' => ?_
  -- of the index only those are taken that are not broadcast
  have hbcst : w ∈ pwm.broadcastWants := AList.mem_keys.mpr (RangeOrder.mem_range.mp hin)
  have hno : pwm.broadcastWants.has w = false := by simpa using (List.mem_filter.mp hin').2
  exact GoSet.has_eq_false.mp hno hbcst

theorem Indexed.mem_getWants (h : pwm.Indexed) (ob ow : RangeOrder) (w : Want) :
    w ∈ pwm.getWants ob ow ↔ w ∈ pwm.outstanding := by
  rw [mem_outstanding, ← h.mem_wantPeers, getWants, List.mem_append, List.mem_filter,
    RangeOrder.mem_range, RangeOrder.mem_range, ← AList.mem_keys, ← AList.mem_keys]
  by_cases hb : w ∈ pwm.broadcastWants
  · simp [hb]
  · simp [hb]

/-- **The reverse index is exact after every run**: it has a peer for a want just if the peer is
connected and was sent the want, it has no empty entry, the two sets of a peer are disjoint, and
the local wantlist has every want that is broadcast or outstanding at a peer, once. -/
theorem reverseIndex_exact (ops : List Op) :
    (∀ w p, (run step new ops).wantPeers.Linked w p ↔
      ∃ pws, (run step new ops).peerWants.lookup p = some pws ∧
        (w ∈ pws.wantBlocks ∨ w ∈ pws.wantHaves)) ∧
    (∀ w ps, (run step new ops).wantPeers.lookup w = some ps → ∃ p, p ∈ ps) ∧
    (∀ p pws w, (run step new ops).peerWants.lookup p = some pws →
      ¬ (w ∈ pws.wantBlocks ∧ w ∈ pws.wantHaves)) ∧
    ∀ ob ow, ((run step new ops).getWants ob ow).Nodup ∧
      ∀ w, w ∈ (run step new ops).getWants ob ow ↔ w ∈ (run step new ops).broadcastWants ∨
        ∃ p pws, (run step new ops).peerWants.lookup p = some pws ∧
          (w ∈ pws.wantBlocks ∨ w ∈ pws.wantHaves) := by
  have h := indexed_run ops
  refine ⟨fun w p => ?_, fun w ps hps => ?_, fun p pws w hp hw => ?_,
    fun ob ow => ⟨?_, fun w => ?_⟩⟩
  · simp only [h.index w p, PeerWant.has_eq_true]
  · obtain ⟨p, ps', hps', hp⟩ := h.nonempty w (GoMap.mem_of_lookup hps)
    obtain rfl := Option.some.inj (hps.symm.trans hps')
    exact ⟨p, hp⟩
  · exact h.oneForm p pws w hp hw.1 hw.2
  · exact nodup_getWants _ ob ow
  · rw [h.mem_getWants, mem_outstanding]
    simp only [PeerWant.has_eq_true]

end PeerWantManager

end BitswapAuth
