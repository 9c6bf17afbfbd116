/-
# `BitswapAuth.Node.Standing` — where the wants of a session stand

The life of each want of an open session, read off the state of the node, and
for the steps of sessions and requests the step of that life they are.  A
session's queue of wants goes by CIDs, so what is said here of a want is said
for sessions that ask for its block under one auth only.
-/
import BitswapAuth.Node.Books
import BitswapAuth.Node.Life

namespace BitswapAuth

open Lib

/-! ## A want in a session -/

/-- Whether a want is tracked after one more change, if the changes are taken one by
one. -/
def Change.After (w : Want) (tracked : Prop) (c : Change) : Prop :=
  ((tracked ∨ w ∈ c.add) ∧ w ∉ c.cancel) ∧ ¬ (c.update.sender ≠ .empty ∧ w ∈ c.update.ks)

theorem Change.After.of_notMem {w : Want} {tracked : Prop} {c : Change} (h : c.After w tracked)
    (hadd : w ∉ c.add) : tracked :=
  h.1.1.resolve_right hadd

theorem foldl_after_mono {w : Want} : ∀ (l : List Change) {P Q : Prop}, (P → Q) →
    l.foldl (Change.After w) P → l.foldl (Change.After w) Q
  | [], _, _, h => h
  | _ :: l, _, _, h => foldl_after_mono l fun hP => ⟨⟨hP.1.1.imp_left h, hP.1.2⟩, hP.2⟩

/-- A batch takes no more wants in than its changes do one by one: a block in it is
taken last. -/
theorem foldl_after_of_trackedAfter {w : Want} : ∀ (l : List Change) {P : Prop},
    TrackedAfter w P l → w ∉ blocksOf l → l.foldl (Change.After w) P
  | [], _, h, _ => h
  | c :: l, P, h, hb => by
      have hbl : w ∉ blocksOf l := fun hw => hb (by
        obtain ⟨upd, hu, hw⟩ := List.mem_flatMap.mp hw
        obtain ⟨hu, hs⟩ := List.mem_filter.mp hu
        exact List.mem_flatMap.mpr
          ⟨upd, List.mem_filter.mpr ⟨List.mem_cons_of_mem c.update hu, hs⟩, hw⟩)
      refine foldl_after_mono l (fun hP => ⟨hP, fun hc => hb ?_⟩)
        (foldl_after_of_trackedAfter l h hbl)
      exact List.mem_flatMap.mpr ⟨c.update, List.mem_filter.mpr
        ⟨List.mem_cons_self, decide_eq_true hc.1⟩, hc.2⟩

namespace Session

/-- What an operation is to a want. -/
def Op.note (w : Want) (o : Op) : Option Note :=
  match o.op with
  | .opWant => if w ∈ o.wants then some .want else none
  | .opReceive => if w ∈ o.wants then some .receive else none
  | .opCancel => if w.cid ∈ o.keys then some .cancel else none
  | .opWantsSent | .opBroadcast => none

/-- The queue, as far as a want is concerned. -/
def notes (w : Want) (l : List Op) : List Note := l.filterMap (Op.note w)

/-- The loop is about to pass the want to the sender. -/
def Loop.Adds (w : Want) : Loop → Prop
  | .adding newks => w ∈ newks
  | .select | .sending | .cancelling _ => False

instance (w : Want) : (l : Loop) → Decidable (l.Adds w)
  | .adding newks => inferInstanceAs (Decidable (w ∈ newks))
  | .select | .sending | .cancelling _ => .isFalse False.elim

/-- The sender has the want, once it is through its changes. -/
def Tracks (s : Session) (w : Want) : Prop := s.changes.foldl (Change.After w) (w ∈ s.sws.wants)

variable {s s' : Session} {w : Want} {sid : SessionID} {P : Want → Prop}

theorem FromSender.note_eq_none {o : Op} (h : FromSender o) : o.note w = none := by
  obtain ⟨op, keys, wants⟩ := o
  rcases h with h | h
  · obtain rfl : op = .opWantsSent := h
    rfl
  · obtain rfl : op = .opBroadcast := h
    rfl

theorem notes_append (l l' : List Op) : notes w (l ++ l') = notes w l ++ notes w l' :=
  List.filterMap_append

theorem want_mem_notes {l : List Op} :
    .want ∈ notes w l ↔ ∃ o ∈ l, o.op = .opWant ∧ w ∈ o.wants := by
  rw [notes]
  rw [List.mem_filterMap]
  refine exists_congr fun o => and_congr_right fun _ => ?_
  obtain ⟨op, keys, wants⟩ := o
  cases op <;> simp [Op.note]

theorem tracks_addChange {c : Change} : (s.addChange c).Tracks w = c.After w (s.Tracks w) := by
  rw [Tracks, addChange]
  exact List.foldl_append

/-- A step of a session that is nothing to a want, but that the sender may learn of
its block; the session's wants are of a kind. -/
structure Keeps (P : Want → Prop) (w : Want) (s s' : Session) : Prop where
  queue : notes w s'.incoming = notes w s.incoming
  adds : s'.loop.Adds w ↔ s.loop.Adds w
  has : (∀ k, P k → SessionWants.Sole w k) → s'.sw.isWanted w = s.sw.isWanted w
  tracks : s'.Tracks w → s.Tracks w
  done : s'.done = s.done

theorem Keeps.refl (P : Want → Prop) (w : Want) (s : Session) : Keeps P w s s :=
  ⟨rfl, Iff.rfl, fun _ => rfl, fun ht => ht, rfl⟩

theorem Keeps.trans {s'' : Session} (h : Keeps P w s s') (h' : Keeps P w s' s'') :
    Keeps P w s s'' :=
  ⟨h'.queue.trans h.queue, h'.adds.trans h.adds, fun hw => (h'.has hw).trans (h.has hw),
    fun ht => h.tracks (h'.tracks ht), h'.done.trans h.done⟩

theorem Frame.tracks (h : Frame s s') : s'.Tracks w = s.Tracks w := by
  unfold Tracks
  rw [h.sws, h.changes]

theorem Same.keeps (h : Same s s') : Keeps P w s s' :=
  ⟨by rw [h.incoming], by rw [h.loop], fun _ => by rw [h.sw], fun ht => h.tracks ▸ ht, h.done⟩

theorem keeps_resent {sw : SessionWants} (h : SessionWants.Resent P s.sw sw) :
    Keeps P w s { s with sw := sw } :=
  ⟨rfl, Iff.rfl, fun hw => Bool.eq_iff_iff.mpr (h.isWanted w hw), fun ht => ht, rfl⟩

theorem keeps_addChange {c : Change} (hc : w ∉ c.add) : Keeps P w s (s.addChange c) :=
  ⟨rfl, Iff.rfl, fun _ => rfl, fun ht => (tracks_addChange ▸ ht).of_notMem hc, rfl⟩

theorem keeps_enqueue {o : Op} (ho : o.note w = none) : Keeps P w s (s.enqueue o) := by
  refine ⟨?_, Iff.rfl, fun _ => rfl, fun ht => ht, rfl⟩
  show notes w (s.incoming ++ [o]) = _
  rw [notes_append]
  simp [notes, ho]

theorem keeps_nonBlockingEnqueue {o : Op} (ho : FromSender o) :
    Keeps P w s (s.nonBlockingEnqueue o) := by
  rw [nonBlockingEnqueue]
  split
  · exact keeps_enqueue ho.note_eq_none
  · exact ⟨rfl, Iff.rfl, fun _ => rfl, fun ht => ht, rfl⟩

theorem keeps_signalAvailability (p : PeerID) (b : Bool) :
    Keeps P w s (s.signalAvailability p b) := by
  rw [signalAvailability]
  split
  · exact keeps_addChange (by simp)
  · exact ⟨rfl, Iff.rfl, fun _ => rfl, fun ht => ht, rfl⟩

theorem Books.keeps_enterChange (hb : Books sid P s) (i : Nat) : Keeps P w s (s.enterChange i) := by
  rcases s.enterChange_cases i with heq | ⟨c, hc, heq⟩
  · rw [heq]
    exact .refl P w s
  · have h : Keeps P w s (s.addChange c) := keeps_addChange (by
      rw [(hb.blockedChanges c hc).1]
      exact List.not_mem_nil)
    rw [heq]
    exact ⟨h.queue, h.adds, h.has, h.tracks, h.done⟩

theorem Books.keeps_enterOp (hb : Books sid P s) (i : Nat) : Keeps P w s (s.enterOp i) := by
  rcases s.enterOp_cases i with heq | ⟨o, ho, heq⟩
  · rw [heq]
    exact .refl P w s
  · have h : Keeps P w s (s.enqueue o) := keeps_enqueue (hb.blockedOps o ho).2.note_eq_none
    rw [heq]
    exact ⟨h.queue, h.adds, h.has, h.tracks, h.done⟩

theorem keeps_foundProvider (i : Nat) (p : PeerID) : Keeps P w s (s.foundProvider i p) := by
  rw [foundProvider]
  split
  · exact .refl P w s
  · split
    · exact keeps_addChange (by simp)
    · exact .refl P w s

theorem Books.keeps_passCancel (hb : Books sid P s) : Keeps P w s s.passCancel := by
  rw [Session.passCancel]
  split
  · rename_i wants hl
    have hno : LoopOf P (.cancelling wants) := hl ▸ hb.loop
    exact False.elim hno
  · exact .refl P w s

theorem Books.keeps_broadcast (hb : Books sid P s) (now : Time) (ws : Option (List Want)) :
    Keeps P w s (s.broadcast now ws).1 := by
  refine Keeps.trans ?_ (same_broadcast now s ws).keeps
  cases ws with
  | some ws => exact .refl P w s
  | none => exact keeps_resent (SessionWants.resent_prepareBroadcast now hb.sw)

theorem Books.keeps_onIdleTick (hb : Books sid P s) (now : Time) :
    Keeps P w s (s.onIdleTick now) := by
  rw [Session.onIdleTick]
  split
  · have hb' : Books sid P { s with idleTick := s.idleTick.take } := { hb with }
    have h := hb'.keeps_broadcast (w := w) now none
    exact ⟨h.queue, h.adds, h.has, h.tracks, h.done⟩
  · exact .refl P w s

theorem Books.keeps_passFirst (hb : Books sid P s) (now : Time) :
    Keeps P w s (s.passFirst now) := by
  rw [Session.passFirst]
  split
  · rename_i hl
    have hadds : s.loop.Adds w ↔ False := by rw [hl]; exact Iff.rfl
    rw [Session.sendFirst]
    dsimp only
    split
    · exact ⟨rfl, hadds.symm, fun _ => rfl, fun ht => ht, rfl⟩
    · have h := keeps_resent (w := w) (SessionWants.resent_getNextWants now hb.sw)
      exact ⟨rfl, hadds.symm, h.has, fun ht => ht, rfl⟩
  · exact .refl P w s

theorem keeps_turn (bpm : BlockPresenceManager) (k : Nat) :
    Keeps P w s { s with
      sws := (s.sws.onChange bpm (s.changes.take k)).1, changes := s.changes.drop k } := by
  refine ⟨rfl, Iff.rfl, fun _ => rfl, fun ht => ?_, rfl⟩
  have hturn := (SessionWantSender.turn_onChange bpm (s.changes.take k) s.sws).tracked w
  show s.changes.foldl (Change.After w) (w ∈ s.sws.wants)
  rw [← List.take_append_drop k s.changes, List.foldl_append]
  refine foldl_after_mono _ (fun hw => ?_) ht
  exact foldl_after_of_trackedAfter _ (hturn.mp hw).1 (hturn.mp hw).2

/-- The loop passes its wants to the sender: nothing to the others. -/
theorem keeps_passAdd (h : ¬ s.loop.Adds w) : Keeps P w s s.passAdd := by
  rw [passAdd]
  split
  · rename_i newks hl
    rw [hl] at h
    split
    · have hk : Keeps P w s (s.addChange { add := newks }) := keeps_addChange h
      exact ⟨hk.queue, (iff_false_right (hl ▸ h)).mpr fun h => h, hk.has, hk.tracks, hk.done⟩
    · exact .refl P w s
  · exact .refl P w s

end Session

/-! ## The life of a want -/

namespace Request

/-- An open call for the want that has not sent its operation. -/
def Fresh (sid : SessionID) (w : Want) (r : Request) : Prop :=
  r.session = sid ∧ w ∈ r.wants ∧ r.closed = false ∧ r.asked = false

instance (sid : SessionID) (w : Want) (r : Request) : Decidable (r.Fresh sid w) :=
  inferInstanceAs (Decidable (_ ∧ _ ∧ _ ∧ _))

/-- An open call for the want whose subscription has not got the block. -/
def Waiting (sid : SessionID) (w : Want) (r : Request) : Prop :=
  r.session = sid ∧ w ∈ r.wants ∧ r.closed = false ∧ w.cid ∈ r.keys

/-- A call for the want whose subscription has got the block. -/
def Served (sid : SessionID) (w : Want) (r : Request) : Prop :=
  r.session = sid ∧ w ∈ r.wants ∧ w.cid ∉ r.keys

end Request

namespace Node

/-- Where the want stands in the session. -/
def life (n : Node) (sid : SessionID) (s : Session) (w : Want) : Life where
  fresh := ∃ r ∈ n.requests, r.Fresh sid w
  waiting := ∃ r ∈ n.requests, r.Waiting sid w
  served := ∃ r ∈ n.requests, r.Served sid w
  queue := Session.notes w s.incoming
  entering := s.loop.Adds w
  has := s.sw.isWanted w = true
  flag := n.sim.find sid w = some true
  known := n.sim.find sid w ≠ none
  tracked := s.Tracks w

variable {n : Node} {sid : SessionID} {s s' : Session} {w : Want}

theorem requested_of_waiting (h : (n.life sid s w).waiting) : n.Requested sid w :=
  h.imp fun _ h => ⟨h.1, h.2.1, h.2.2.1⟩

/-- A want that no call asks for. -/
theorem inv_life_of_not_requested (hb : s.Books sid (n.Requested sid)) (h : ¬ n.Requested sid w) :
    (n.life sid s w).Inv := by
  refine Life.inv_of_unasked (fun hf => h ?_) (fun hw => h (requested_of_waiting hw))
    (fun hs => h ?_) fun he => h ?_
  · exact hf.imp fun _ h => ⟨h.1, h.2.1, h.2.2.1⟩
  · exact hs.imp fun _ h => ⟨h.1, h.2.1, h.2.2.1⟩
  · have hl := hb.loop
    cases hloop : s.loop with
    | adding newks =>
        rw [hloop] at hl
        have he : s.loop.Adds w := he
        rw [hloop] at he
        exact hl w he
    | select | sending | cancelling ws =>
        have he : s.loop.Adds w := he
        rw [hloop] at he
        exact False.elim he

/-! ### Steps of the session -/

theorem step_of_keeps {P : Want → Prop} (hw : ∀ k, P k → SessionWants.Sole w k)
    (h : Session.Keeps P w s s') : (n.life sid s w).Step (n.life sid s' w) := by
  have he : n.life sid s' w = { n.life sid s w with tracked := s'.Tracks w } :=
    Life.ext rfl rfl rfl h.queue (propext h.adds) (congrArg (· = true) (h.has hw)) rfl rfl rfl
  rw [he]
  exact .stay _ h.tracks

theorem step_passAdd : (n.life sid s w).Step (n.life sid s.passAdd w) := by
  by_cases ha : s.loop.Adds w
  · rw [Session.passAdd]
    split
    · rename_i newks hl
      have hmem : w ∈ newks := by rwa [hl] at ha
      split
      · have ht : (s.addChange { add := newks }).Tracks w ↔ True := by
          rw [Session.tracks_addChange]
          simp [Change.After, hmem]
        have he : n.life sid { s.addChange { add := newks } with loop := .sending } w =
            { n.life sid s w with entering := False, tracked := True } :=
          Life.ext rfl rfl rfl rfl rfl rfl rfl rfl (propext ht)
        rw [he]
        exact .add ha
      · exact .refl _
    · exact .refl _
  · exact step_of_keeps (P := fun _ => False) (fun _ => False.elim) (Session.keeps_passAdd ha)

theorem step_enqueue_receive (ks : List Want) :
    (n.life sid s w).Step (n.life sid (s.enqueue { op := .opReceive, wants := ks }) w) := by
  by_cases hw : w ∈ ks
  · have hq : Session.notes w (s.incoming ++ [{ op := .opReceive, wants := ks }]) =
        Session.notes w s.incoming ++ [.receive] := by
      rw [Session.notes_append]
      simp [Session.notes, Session.Op.note, hw]
    have he : n.life sid (s.enqueue { op := .opReceive, wants := ks }) w =
        { n.life sid s w with queue := (n.life sid s w).queue ++ [.receive] } :=
      Life.ext rfl rfl rfl hq rfl rfl rfl rfl rfl
    rw [he]
    exact .tell
  · exact step_of_keeps (P := fun _ => False) (fun _ => False.elim)
      (Session.keeps_enqueue (by simp [Session.Op.note, hw]))

/-! ### Operations

The loop is at its `select` and takes the operation `oper`; `rest` is left. -/

/-- The life after an operation, by what the operation does to the books. -/
def lifeAfter (n : Node) (now : Time) (oper : Session.Op) (sid : SessionID) (s : Session)
    (w : Want) : Life :=
  { n.life sid s w with
    entering := (s.loopAfter oper).Adds w
    has := (s.swAfter now oper).isWanted w = true
    flag := s.findAfter now n.sim oper sid w = some true
    known := s.findAfter now n.sim oper sid w ≠ none }

theorem life_handled {n' : Node} {oper : Session.Op} {now : Time}
    (hh : Session.Handled now oper s n.sim (s', n'.sim)) (hreq : n'.requests = n.requests) :
    n'.life sid s' w = n.lifeAfter now oper sid s w := by
  have hloop : s'.loop = s.loopAfter oper := hh.loop
  have hsw : s'.sw = s.swAfter now oper := hh.sw
  have hinc : s'.incoming = s.incoming := hh.frame.incoming
  have htracks : s'.Tracks w = s.Tracks w := hh.frame.tracks
  simp only [lifeAfter, life, hreq, hloop, hsw, hinc, htracks, hh.find]

section

variable {oper : Session.Op} {rest : List Session.Op} {now : Time} {keys : List Cid}
  {wants : List Want}

theorem queue_of_note (hinc : s.incoming = oper :: rest) {m : Note} (h : oper.note w = some m) :
    (n.life sid s w).queue = m :: Session.notes w rest := by
  show Session.notes w s.incoming = _
  rw [hinc]
  exact List.filterMap_cons_some h

theorem not_adds (hl : s.loop = .select) : ¬ s.loop.Adds w := by
  rw [hl]
  exact False.elim

theorem step_other (hl : s.loop = .select) (hinc : s.incoming = oper :: rest)
    (hnote : oper.note w = none) (hadds : ¬ (s.loopAfter oper).Adds w)
    (hhas : (s.swAfter now oper).isWanted w = true ↔ s.sw.isWanted w = true)
    (hfind : s.findAfter now n.sim oper sid w = n.sim.find sid w) :
    (n.life sid s w).Step (n.lifeAfter now oper sid { s with incoming := rest } w) := by
  have hq : Session.notes w rest = Session.notes w s.incoming := by
    rw [hinc]
    exact (List.filterMap_cons_none hnote).symm
  have he : n.lifeAfter now oper sid { s with incoming := rest } w =
      { n.life sid s w with tracked := s.Tracks w } :=
    Life.ext rfl rfl rfl hq (propext ⟨fun h => absurd h hadds, fun h => absurd h (not_adds hl)⟩)
      (propext hhas) (congrArg (· = some true) hfind) (congrArg (· ≠ none) hfind) rfl
  rw [he]
  exact .stay _ fun h => h

theorem step_opWant (hb : s.Books sid (n.Requested sid))
    (hw : ∀ k ∈ wants, SessionWants.Sole w k) (hl : s.loop = .select)
    (hinc : s.incoming = ⟨.opWant, keys, wants⟩ :: rest) :
    (n.life sid s w).Step
      (n.lifeAfter now ⟨.opWant, keys, wants⟩ sid { s with incoming := rest } w) := by
  have hid : sid = s.id := hb.id.symm
  have hhas := @SessionWants.isWanted_blocksRequested s.sw w wants
  by_cases hm : w ∈ wants
  · have hne : ¬ wants.isEmpty := fun h => by simp [List.isEmpty_iff.mp h] at hm
    have he : n.lifeAfter now ⟨.opWant, keys, wants⟩ sid { s with incoming := rest } w =
        { n.life sid s w with
          queue := Session.notes w rest, entering := True, has := True, flag := True
          known := True } := by
      refine Life.ext rfl rfl rfl rfl (eq_true ?_) (eq_true ?_) (eq_true ?_) (eq_true ?_) rfl
      · simp only [lifeAfter, Session.loopAfter, if_neg hne]
        exact hm
      · exact hhas.mpr (.inr ⟨w, hm, rfl⟩)
      · simp [lifeAfter, Session.findAfter, hid, hm]
      · simp [lifeAfter, Session.findAfter, hid, hm]
    rw [he]
    exact .takeWant _ (queue_of_note hinc (by simp [Session.Op.note, hm])) (not_adds hl)
  · refine step_other hl hinc (by simp [Session.Op.note, hm]) ?_ ?_ ?_
    · simp only [Session.loopAfter]
      split
      · exact False.elim
      · exact hm
    · -- another want of the block would be this one
      refine hhas.trans ⟨fun h => h.resolve_right ?_, .inl⟩
      rintro ⟨k, hk, hc⟩
      exact hm (hw k hk hc ▸ hk)
    · simp [Session.findAfter, hm]

theorem step_opReceive (hb : s.Books sid (n.Requested sid))
    (hw : ∀ k ∈ wants, SessionWants.Sole w k) (hl : s.loop = .select)
    (hinc : s.incoming = ⟨.opReceive, keys, wants⟩ :: rest) :
    (n.life sid s w).Step
      (n.lifeAfter now ⟨.opReceive, keys, wants⟩ sid { s with incoming := rest } w) := by
  have hid : sid = s.id := hb.id.symm
  have hr := SessionWants.received_blocksReceived now s.sw wants
  have hwanted := hr.wanted w hw
  have hhas := hr.isWanted w hw
  by_cases hm : w ∈ wants
  · have he : n.lifeAfter now ⟨.opReceive, keys, wants⟩ sid { s with incoming := rest } w =
        { n.life sid s w with
          queue := Session.notes w rest, has := False
          flag := (n.life sid s w).flag ∧ ¬ (n.life sid s w).has } := by
      refine Life.ext rfl rfl rfl rfl rfl (propext ?_) (propext ?_) (propext ?_) rfl
      · exact hhas.trans ⟨fun h => h.2 hm, False.elim⟩
      · -- the entry is lowered if the session has the want
        simp only [lifeAfter, Session.findAfter, hwanted, hm, hid, true_and]
        split
        · rename_i hiw
          simp [life, hiw]
        · rename_i hiw
          exact ⟨fun h => ⟨h, hiw⟩, fun h => h.1⟩
      · simp only [lifeAfter, Session.findAfter]
        split
        · simp [life]
        · exact Iff.rfl
    rw [he]
    exact .takeReceive _ (queue_of_note hinc (by simp [Session.Op.note, hm])) (not_adds hl)
  · refine step_other hl hinc (by simp [Session.Op.note, hm]) (not_adds hl) ?_ ?_
    · exact hhas.trans ⟨fun h => h.1, fun h => ⟨h, hm⟩⟩
    · simp [Session.findAfter, hwanted, hm]

theorem step_opCancel (hl : s.loop = .select)
    (hinc : s.incoming = ⟨.opCancel, keys, []⟩ :: rest) :
    (n.life sid s w).Step
      (n.lifeAfter now ⟨.opCancel, keys, []⟩ sid { s with incoming := rest } w) := by
  have hhas := @SessionWants.isWanted_cancelPending s.sw w keys
  by_cases hm : w.cid ∈ keys
  · refine .takeCancel _ ((s.sw.cancelPending keys).isWanted w = true)
      (queue_of_note hinc (by simp [Session.Op.note, hm])) (fun h => ?_) (not_adds hl)
    exact SessionWants.isWanted_iff.mpr ((hhas.mp h).imp_right And.left)
  · refine step_other hl hinc (by simp [Session.Op.note, hm]) (not_adds hl) ?_ rfl
    exact (hhas.trans (or_congr_right (and_iff_left hm))).trans SessionWants.isWanted_iff.symm

/-- **The run loop takes an operation**: if it is about the want, the want takes the
step of its kind. -/
theorem step_handled {n' : Node} (hb : s.Books sid (n.Requested sid))
    (hw : ∀ k, n.Requested sid k → SessionWants.Sole w k) (hl : s.loop = .select)
    (hinc : s.incoming = oper :: rest) (hreq : n'.requests = n.requests)
    (hh : Session.Handled now oper { s with incoming := rest } n.sim (s', n'.sim)) :
    (n.life sid s w).Step (n'.life sid s' w) := by
  have hoper := hb.incoming oper (hinc ▸ List.mem_cons_self)
  rw [life_handled hh hreq]
  obtain ⟨op, keys, wants⟩ := oper
  cases op with
  | opReceive => exact step_opReceive hb (fun k hk => hw k (hoper k hk)) hl hinc
  | opWant => exact step_opWant hb (fun k hk => hw k (hoper k hk)) hl hinc
  | opCancel =>
      obtain rfl : wants = [] := hoper.1
      exact step_opCancel hl hinc
  | opWantsSent =>
      have hr := SessionWants.resent_wantsSent now wants hb.sw hoper
      exact step_other hl hinc rfl (not_adds hl) (hr.isWanted w hw) rfl
  | opBroadcast => exact step_other hl hinc rfl (not_adds hl) Iff.rfl rfl

end

end Node

end BitswapAuth
