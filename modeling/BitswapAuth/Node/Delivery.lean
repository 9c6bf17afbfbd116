/-
# `BitswapAuth.Node.Delivery` — what a completed call leaves behind

A call of `GetBlocks` is complete when its subscriptions have brought it all its
blocks.  The subscriptions go by CID; the books of the session, by CID and auth,
are cleared on another way, and the two part in four places:

* a block may come with another auth than the one it was asked for with;
* the sender ignores an update that comes from no peer, so a block that is added
  locally is published and still tracked;
* the subscription begins before the want operation is sent, and a block that
  comes in between is published to a session that is not told;
* a call that ends early takes the wants that others have asked for too out of
  the queue, by CID, and leaves all its wants tracked.

`Sound` rules these out, action by action, and under it nothing is left behind.
The proof follows each block of a call of `receiveBlocksFrom` on its way: until
its publication the want it serves is with the sender, and at the publication it
is clear.
-/
import BitswapAuth.Node.Moves

namespace BitswapAuth

open Lib

/-! ## The property and the condition -/

namespace Session

/-- The want is with the loop or in an operation, on its way to the sender. -/
def Entering (s : Session) (w : Want) : Prop :=
  s.loop.Adds w ∨ ∃ o ∈ s.incoming, o.op = .opWant ∧ w ∈ o.wants

instance (s : Session) (w : Want) : Decidable (s.Entering w) := inferInstanceAs (Decidable (_ ∨ _))

end Session

namespace Node

/-- A call or the session is about to pass the want to the sender. -/
def Entering (n : Node) (sid : SessionID) (w : Want) : Prop :=
  (∃ r ∈ n.requests, r.Fresh sid w) ∨ ∃ s ∈ n.sessions.lookup sid, s.Entering w

instance (n : Node) (sid : SessionID) (w : Want) : Decidable (n.Entering sid w) :=
  inferInstanceAs (Decidable (_ ∨ ∃ s ∈ n.sessions.lookup sid, _))

/-- The wants that the calls on a session, present and past, ask for. -/
def asked (n : Node) (sid : SessionID) : List Want :=
  (n.requests.filter fun r => r.session = sid).flatMap Request.wants

/-- If the call is open and waits for the block, then the block comes from a peer and
under the auth of the want, and the want is with the sender. -/
def Serves (n : Node) (sender : PeerID) (b : AuthBlock) (r : Request) : Prop :=
  r.closed = false → n.sessionDone r.session = false → b.cid ∈ r.keys →
    sender ≠ .empty ∧ ∀ w ∈ r.wants, w.cid = b.cid → b.want = w ∧ ¬ n.Entering r.session w

instance (n : Node) (sender : PeerID) (b : AuthBlock) (r : Request) :
    Decidable (n.Serves sender b r) :=
  inferInstanceAs (Decidable (_ → _ → _ → _ ∧ _))

/-- The actions after which a completed call leaves nothing behind. -/
def Sound (n : Node) : Action → Prop
  | .getBlocks sid wants => n.sessionDone sid = false →
      -- one auth for each block, and none of the blocks is about to be published
      (∀ w ∈ wants, ∀ k ∈ wants ++ n.asked sid, SessionWants.Sole w k) ∧
        ∀ t ∈ n.receives, ∀ b ∈ t.wanted, ∀ w ∈ wants, w.cid ≠ b.cid
  | .finish i lost _ => ∀ r ∈ n.requests[i]?, r.closed = false → n.sessionDone r.session = false →
      n.Alone i lost r
  | .receiveBlocksFrom sender blks _ _ =>
      ∀ b ∈ n.published sender (blks.map fun b => AuthBlock.new b.1 b.2), ∀ r ∈ n.requests,
        n.Serves sender b r
  | _ => True

instance (n : Node) : (a : Action) → Decidable (n.Sound a)
  | .getBlocks _ _ => inferInstanceAs (Decidable (_ → _ ∧ _))
  | .finish i _ _ => inferInstanceAs (Decidable (∀ r ∈ n.requests[i]?, _))
  | .receiveBlocksFrom sender _ _ _ =>
      inferInstanceAs (Decidable (∀ b ∈ _, ∀ r ∈ n.requests, n.Serves sender b r))
  | .newSession .. | .takeOp .. | .add .. | .sendFirst .. | .cancelWants .. | .enterOp ..
  | .onChange .. | .signal .. | .enterChange .. | .provider .. | .fireIdle .. | .idleTick ..
  | .fireSearch .. | .periodicSearch .. | .setBaseTickDelay .. | .shutdown ..
  | .removeSession .. | .want .. | .cancel .. | .unsubscribe .. | .deliver ..
  | .receiveStep .. => .isTrue trivial

/-- The want is not tracked, live, queued, or flagged as wanted. -/
def OffBooks (n : Node) (sid : SessionID) (s : Session) (w : Want) : Prop :=
  w ∉ s.sws.wants ∧ w ∉ s.sw.liveWants ∧ ¬ s.sw.toFetch.Queued w ∧ n.sim.find sid w ≠ some true

instance (n : Node) (sid : SessionID) (s : Session) (w : Want) : Decidable (n.OffBooks sid s w) :=
  inferInstanceAs (Decidable (_ ∧ _ ∧ _ ∧ _))

/-- **Nothing is left behind**: where the loops of an open session have gone through
everything, no want of a completed call is on the books, unless a call that is open
asks for it. -/
def Settled (n : Node) : Prop :=
  ∀ r ∈ n.requests, r.Completed → ∀ s ∈ n.sessions.lookup r.session, s.done = false →
    s.Drained → ∀ w ∈ r.wants, n.Unasked r.session w → n.OffBooks r.session s w

instance (n : Node) : Decidable n.Settled :=
  inferInstanceAs (Decidable (∀ r ∈ n.requests, _ → ∀ s ∈ n.sessions.lookup r.session, _))

end Node

/-! ## Blocks on their way -/

/-- How far a call of `receiveBlocksFrom` has come with the block of a want. -/
def OnWay (sid : SessionID) (w : Want) (l : Life) : Place → Prop
  | .recording | .lookingUp => True
  | .telling ids => sid ∈ ids ∨ l.Clear
  | .updating sid' ks _ _ ids => (sid' = sid ∧ w ∈ ks) ∨ sid ∈ ids ∨ l.Clear
  | .receiving sid' ks ids => (sid' = sid ∧ w ∈ ks ∧ ¬ l.tracked) ∨ sid ∈ ids ∨ l.Clear
  | .publishing => l.Clear

/-- A block of a call, and a want of an open session that waits for it. -/
structure Flight (sid : SessionID) (w : Want) (l : Life) (t : Receive) (b : AuthBlock) : Prop where
  want : b.want = w
  sender : t.sender ≠ .empty
  entering : ¬ l.Entering
  place : OnWay sid w l t.place

section

variable {sid : SessionID} {w : Want} {l l' : Life} {t : Receive} {b : AuthBlock}

theorem OnWay.calm (h : l.Calm l') : ∀ {p : Place}, OnWay sid w l p → OnWay sid w l' p
  | .recording, _ | .lookingUp, _ => trivial
  | .telling _, hp => hp.imp_right h.clear
  | .updating _ _ _ _ _, hp => hp.imp_right (Or.imp_right h.clear)
  | .receiving _ _ _, hp =>
      hp.imp (fun ⟨hs, hw, ht⟩ => ⟨hs, hw, fun ht' => ht (h.tracked ht')⟩) (Or.imp_right h.clear)
  | .publishing, hp => h.clear hp

theorem Flight.step (h : Flight sid w l t b) (hs : l.Step l') (hw : l'.waiting) :
    Flight sid w l' t b :=
  have hc := hs.calm hw h.entering
  ⟨h.want, h.sender, hc.entering, h.place.calm hc⟩

/-- A want that waits for a block on its way has an entry with the interest manager. -/
theorem Flight.known (h : Flight sid w l t b) (hi : l.Inv) (hw : l.waiting) : l.known :=
  (hi.known hw).resolve_left fun hc => h.entering (.inl hc)

end

namespace Node

/-- The blocks a call is to publish are on their way. -/
def InFlight (n : Node) (t : Receive) : Prop :=
  ∀ b ∈ t.wanted, ∀ sid s, n.Open sid s → ∀ w, w.cid = b.cid → (n.life sid s w).waiting →
    Flight sid w (n.life sid s w) t b

/-- What holds along a run of sound actions. -/
structure Inv (n : Node) : Prop where
  wf : n.Wf
  oneAuth : n.OneAuth
  unserved : n.Unserved
  life : ∀ sid s, n.Open sid s → ∀ w, (n.life sid s w).Inv
  flight : ∀ t ∈ n.receives, n.InFlight t

variable {n n' : Node} {sid : SessionID} {s : Session} {w : Want} {i : Nat} {t : Receive}

theorem inv_start : start.Inv where
  wf := wf_start
  oneAuth sid s h := by simp [Open, start] at h
  unserved r h := by simp [start] at h
  life sid s h := by simp [Open, start] at h
  flight t h := by simp [start] at h

/-- The invariant after a step that is a step of each want's life. -/
theorem Inv.steps (hi : n.Inv) (hwf : n'.Wf) (hs : n.Steps n')
    (hreq : ∀ sid w, n'.Requested sid w → n.Requested sid w) (hu : n'.Unserved)
    (hrec : ∀ t ∈ n'.receives, t ∈ n.receives ∨ n'.InFlight t) : n'.Inv where
  wf := hwf
  oneAuth sid s' hs' w k hw hk := by
    obtain ⟨s, hopen, -⟩ := hs sid s' hs' w (hreq sid w hw)
    exact hi.oneAuth sid s hopen w k (hreq sid w hw) (hreq sid k hk)
  unserved := hu
  life sid s' hs' w := by
    by_cases hw : n'.Requested sid w
    · obtain ⟨s, hopen, hstep⟩ := hs sid s' hs' w (hreq sid w hw)
      exact (hi.life sid s hopen w).step hstep
    · exact inv_life_of_not_requested (hwf.books sid s' hs'.1) hw
  flight t ht := by
    refine (hrec t ht).elim (fun ht b hb sid s' hs' w hw hwait => ?_) id
    obtain ⟨s, hopen, hstep⟩ := hs sid s' hs' w (hreq sid w (requested_of_waiting hwait))
    exact (hi.flight t ht b hb sid s hopen w hw (hstep.waiting hwait)).step hstep hwait

theorem Inv.moves (hi : n.Inv) (hwf : n'.Wf) (hm : n.Moves n') : n'.Inv := by
  have hreq : ∀ sid w, n'.Requested sid w → n.Requested sid w := by
    rintro sid w ⟨r', hr', hs, hw⟩
    obtain ⟨r, hr, hf⟩ := hm.requests r' hr'
    exact ⟨r, hr, hf.session ▸ hs, hf.wants ▸ hw⟩
  refine hi.steps hwf hm.steps hreq (fun r' hr' s' hs' ha hc w hw => ?_) fun t ht =>
    .inl (hm.receives ▸ ht)
  obtain ⟨s, hopen, -⟩ := hm.steps _ s' hs' w (hreq _ w ⟨r', hr', rfl, hw⟩)
  obtain ⟨r, hr, hf⟩ := hm.requests r' hr'
  rw [hf.keys]
  exact hi.unserved r hr s (hf.session ▸ hopen) (hf.asked ha) (hf.closed hc) w (hf.wants ▸ hw)

theorem open_iff : n.sessionDone sid = false ↔ ∃ s, n.Open sid s := by
  unfold sessionDone Open
  cases h : n.sessions.lookup sid with
  | none => simp
  | some s => simp

theorem Open.sessionDone (h : n.Open sid s) : n.sessionDone sid = false := open_iff.mpr ⟨s, h⟩

theorem mem_asked : w ∈ n.asked sid ↔ n.Requested sid w := by
  rw [asked, Requested]
  simp only [List.mem_flatMap, List.mem_filter, decide_eq_true_iff]
  exact exists_congr fun r => and_assoc

theorem entering_life (h : n.Open sid s) : (n.life sid s w).Entering ↔ n.Entering sid w := by
  have hs : (∃ s' ∈ n.sessions.lookup sid, s'.Entering w) ↔ s.Entering w := by
    rw [h.1]
    exact ⟨fun ⟨s', hs', he⟩ => Option.some.inj hs' ▸ he, fun he => ⟨s, rfl, he⟩⟩
  rw [Node.Entering, Life.Entering, Life.Coming]
  rw [hs, or_assoc, or_comm (a := Note.want ∈ _)]
  exact or_congr_right (or_congr_right Session.want_mem_notes)

/-! ## Calls -/

section

variable {wants : List Want}

theorem requested_subscribe {sid' : SessionID} :
    ({ n with requests := n.requests ++ [.subscribe sid wants] } : Node).Requested sid' w ↔
      n.Requested sid' w ∨ sid = sid' ∧ w ∈ wants := by
  unfold Requested
  simp [or_and_right, exists_or, Request.subscribe]

theorem life_subscribe (hw : w ∈ wants) :
    ({ n with requests := n.requests ++ [.subscribe sid wants] } : Node).life sid s w =
      { n.life sid s w with fresh := True, waiting := True } := by
  have hmem : w.cid ∈ Request.cidsOf wants := Request.mem_cidsOf.mpr ⟨w, hw, rfl⟩
  refine Life.ext (eq_true ?_) (eq_true ?_) (propext ?_) rfl rfl rfl rfl rfl rfl
  · exact ⟨_, List.mem_append_right _ List.mem_cons_self, rfl, hw, rfl, rfl⟩
  · exact ⟨_, List.mem_append_right _ List.mem_cons_self, rfl, hw, rfl, hmem⟩
  · simp [life, or_and_right, exists_or, Request.Served, Request.subscribe, hmem]

theorem life_subscribe_other {sid' : SessionID} (h : ¬ (sid = sid' ∧ w ∈ wants)) :
    ({ n with requests := n.requests ++ [.subscribe sid wants] } : Node).life sid' s w =
      n.life sid' s w := by
  refine Life.ext (propext ?_) (propext ?_) (propext ?_) rfl rfl rfl rfl rfl rfl
  · simp only [life, List.mem_append, List.mem_singleton, or_and_right, exists_or, exists_eq_left]
    exact or_iff_left fun hf => h ⟨hf.1, hf.2.1⟩
  · simp only [life, List.mem_append, List.mem_singleton, or_and_right, exists_or, exists_eq_left]
    exact or_iff_left fun hf => h ⟨hf.1, hf.2.1⟩
  · simp only [life, List.mem_append, List.mem_singleton, or_and_right, exists_or, exists_eq_left]
    exact or_iff_left fun hf => h ⟨hf.1, hf.2.1⟩

theorem Inv.getBlocks (hi : n.Inv) (hok : n.Sound (.getBlocks sid wants)) :
    ({ n with requests := n.requests ++ [.subscribe sid wants] } : Node).Inv where
  wf := hi.wf.getBlocks sid wants
  oneAuth sid' s hs w k hw hk := by
    have hs : n.Open sid' s := hs
    rcases requested_subscribe.mp hw with hw' | ⟨rfl, hw'⟩
    · rcases requested_subscribe.mp hk with hk' | ⟨rfl, hk'⟩
      · exact hi.oneAuth sid' s hs w k hw' hk'
      · intro hc
        exact ((hok hs.sessionDone).1 k hk' w (List.mem_append_right _ (mem_asked.mpr hw'))
          hc.symm).symm
    · refine (hok hs.sessionDone).1 w hw' k (List.mem_append.mpr ?_)
      exact (requested_subscribe.mp hk).symm.imp And.right mem_asked.mpr
  unserved r hr s hs ha hc w hw := by
    rcases List.mem_append.mp hr with hr | hr
    · exact hi.unserved r hr s hs ha hc w hw
    · obtain rfl := List.mem_singleton.mp hr
      exact Request.mem_cidsOf.mpr ⟨w, hw, rfl⟩
  life sid' s hs w := by
    have hl := hi.life sid' s hs w
    by_cases h : sid = sid' ∧ w ∈ wants
    · obtain ⟨rfl, hw⟩ := h
      rw [life_subscribe hw]
      exact hl.subscribe
    · rw [life_subscribe_other h]
      exact hl
  flight t ht b hb sid' s hs w hw hwait := by
    have hs : n.Open sid' s := hs
    by_cases h : sid = sid' ∧ w ∈ wants
    · obtain ⟨rfl, hw'⟩ := h
      exact absurd hw ((hok hs.sessionDone).2 t ht b hb w hw')
    · rw [life_subscribe_other h] at hwait ⊢
      exact hi.flight t ht b hb sid' s hs w hw hwait

end

/-! ## Incoming blocks -/

theorem Inv.receiveBlocksFrom (hi : n.Inv) {sender : PeerID} {blks : List (Block × Bytes)}
    {haves dontHaves : List Want}
    (hok : n.Sound (.receiveBlocksFrom sender blks haves dontHaves)) :
    (n.receiveBlocksFrom sender blks haves dontHaves).Inv := by
  refine hi.steps (hi.wf.receiveBlocksFrom sender blks haves dontHaves) (Steps.refl n)
    (fun _ _ => id) hi.unserved fun t ht => ?_
  refine (List.mem_append.mp ht).imp_right fun ht b hb sid s hs w hw hwait => ?_
  rw [List.mem_singleton.mp ht] at hb ⊢
  have hs : n.Open sid s := hs
  obtain ⟨r, hr, rfl, hwants, hc, hk⟩ := hwait
  obtain ⟨hsender, hall⟩ := hok b hb r hr hc hs.sessionDone (hw ▸ hk)
  obtain ⟨hwant, hent⟩ := hall w hwants hw
  exact ⟨hwant, hsender, fun he => hent ((entering_life hs).mp he), trivial⟩

theorem Inv.moveTo (hi : n.Inv) {p : Place} (ht : n.receives[i]? = some t)
    (hwf : (n.moveTo i p).Wf)
    (hp : ∀ b ∈ t.wanted, ∀ sid s, n.Open sid s → ∀ w, (n.life sid s w).waiting →
      Flight sid w (n.life sid s w) t b → OnWay sid w (n.life sid s w) p) :
    (n.moveTo i p).Inv := by
  refine hi.steps hwf (Steps.refl n) (fun _ _ => id) hi.unserved fun t' ht' => ?_
  obtain ⟨j, y, hy, rfl⟩ := Lib.mem_modify.mp ht'
  split
  · rename_i hij
    subst hij
    obtain rfl := Option.some.inj (ht.symm.trans hy)
    refine .inr fun b hb sid s hs w hw hwait => ?_
    have hf := hi.flight t (List.mem_of_getElem? ht) b hb sid s hs w hw hwait
    exact ⟨hf.want, hf.sender, hf.entering, hp b hb sid s hs w hwait hf⟩
  · exact .inl (List.mem_of_getElem? hy)

/-- The want of a block on its way is among those of the call. -/
theorem Inv.mem_allKs (hi : n.Inv) {b : AuthBlock} (ht : n.receives[i]? = some t) {l : Life}
    (hb : b ∈ t.wanted) (hf : Flight sid w l t b) : w ∈ t.allKs :=
  hf.want ▸ ((hi.wf.receives t (List.mem_of_getElem? ht)).wanted b hb).2

/-- The sessions that wait for a block are among those that are looked up. -/
theorem Inv.lookUp (hi : n.Inv) (ht : n.receives[i]? = some t) (o : RangeOrder)
    (hwf : (n.moveTo i (.telling (n.sim.interestedSessions t.allKs t.haves t.dontHaves o))).Wf) :
    (n.moveTo i (.telling (n.sim.interestedSessions t.allKs t.haves t.dontHaves o))).Inv := by
  refine hi.moveTo ht hwf fun b hb sid s hs w hwait hf => .inl ?_
  refine SessionInterestManager.mem_interestedSessions.mpr ⟨w, ?_, ?_⟩
  · exact List.mem_append_left _ (List.mem_append_left _ (hi.mem_allKs ht hb hf))
  · exact hf.known (hi.life sid s hs w) hwait

theorem Inv.tell (hi : n.Inv) (ht : n.receives[i]? = some t) :
    ∀ {ids : List SessionID}, t.place = .telling ids → (n.tell i t ids).Inv
  | [], hp => by
      have hwf := hi.wf.tell i t []
      refine hi.moveTo ht hwf fun b hb sid s hs w hwait hf => ?_
      have hplace := hf.place
      rw [hp] at hplace
      exact hplace.resolve_left List.not_mem_nil
  | sid₀ :: ids, hp => by
      have hwf := hi.wf.tell i t (sid₀ :: ids)
      revert hwf
      rw [Node.tell]
      split
      · intro hwf
        refine hi.moveTo ht hwf fun b hb sid s hs w hwait hf => ?_
        have hplace := hf.place
        rw [hp] at hplace
        rcases hplace with hsid | hclear
        · rcases List.mem_cons.mp hsid with rfl | hsid
          · exact .inl ⟨rfl, SessionInterestManager.mem_filterSessionInterested.mpr
              ⟨hi.mem_allKs ht hb hf, hf.known (hi.life sid s hs w) hwait⟩⟩
          · exact .inr (.inl hsid)
        · exact .inr (.inr hclear)
      · rename_i hgone
        intro hwf
        refine hi.moveTo ht hwf fun b hb sid s hs w hwait hf => ?_
        have hplace := hf.place
        rw [hp] at hplace
        refine hplace.imp_left fun hsid => (List.mem_cons.mp hsid).resolve_left ?_
        rintro rfl
        exact hgone (GoMap.mem_of_lookup hs.1)

theorem open_onSession {f : Session → Session} {s₀ : Session}
    (hs₀ : n.sessions.lookup sid = some s₀) (h : (n.onSession sid f).Open sid s) : s = f s₀ := by
  have hs : (n.sessions.modify sid f).lookup sid = some s := h.1
  rw [GoMap.lookup_modify, if_pos rfl, hs₀] at hs
  exact (Option.some.inj hs).symm

theorem Inv.update (hi : n.Inv) (ht : n.receives[i]? = some t) {sid₀ : SessionID}
    {ks haves dontHaves : List Want} {ids : List SessionID}
    (hp : t.place = .updating sid₀ ks haves dontHaves ids) :
    (n.update i t sid₀ ks haves dontHaves ids).Inv := by
  have hwf := hi.wf.update ht hp
  -- the call goes on to the next session if this one is gone or has nothing to hear
  have hskip : ∀ {m : Node}, m.Inv → m.receives[i]? = some t → (m.moveTo i (.telling ids)).Wf →
      (∀ s, m.Open sid₀ s → ks = []) → (m.moveTo i (.telling ids)).Inv := by
    intro m hm ht hwf hno
    refine hm.moveTo ht hwf fun b hb sid s hs w hwait hf => ?_
    have hplace := hf.place
    rw [hp] at hplace
    refine hplace.resolve_left ?_
    rintro ⟨rfl, hw⟩
    rw [hno s hs] at hw
    exact List.not_mem_nil hw
  rcases n.update_cases i t sid₀ ks haves dontHaves ids with he | ⟨hno, he⟩ | ⟨s₀, hs₀, he⟩
  · rw [he]
    exact hi
  · rw [he] at hwf ⊢
    refine hskip hi ht hwf fun s hs => hno.resolve_left fun hgone => ?_
    exact absurd (hgone.symm.trans hs.1) (by simp)
  · rw [he] at hwf ⊢
    have hm : (n.onSession sid₀
        (·.addChange { update := ⟨t.sender, ks, haves, dontHaves⟩ })).Inv :=
      hi.moves (hi.wf.onSession fun s _ hb => hb.addChange ⟨by simp, rfl⟩)
        (hi.wf.moves_keeps hi.oneAuth fun s _ w => Session.keeps_addChange (by simp))
    split at hwf
    · rename_i hempty
      rw [if_pos hempty]
      exact hskip hm ht hwf fun _ _ => List.isEmpty_iff.mp hempty
    · rename_i hsome
      rw [if_neg hsome]
      refine hm.moveTo ht hwf fun b hb sid s hs w hwait hf => ?_
      have hplace := hf.place
      rw [hp] at hplace
      refine hplace.imp_left ?_
      rintro ⟨rfl, hw⟩
      refine ⟨rfl, hw, fun htr => ?_⟩
      -- the sender takes the want out for this very change
      have htr : s.Tracks w := htr
      rw [open_onSession hs₀ hs, Session.tracks_addChange] at htr
      exact htr.2 ⟨hf.sender, hw⟩

theorem Inv.receive (hi : n.Inv) (ht : n.receives[i]? = some t) {sid₀ : SessionID}
    {ks : List Want} {ids : List SessionID} {skip : Bool} (hp : t.place = .receiving sid₀ ks ids) :
    (n.receive i sid₀ ks ids skip).Inv := by
  have hwf : (n.receive i sid₀ ks ids skip).Wf := hi.wf.receive ht hp
  -- the session is not told, if it is gone or done
  have hskip : (∀ s, ¬ n.Open sid₀ s) → (n.moveTo i (.telling ids)).Wf →
      (n.moveTo i (.telling ids)).Inv := by
    intro hno hwf
    refine hi.moveTo ht hwf fun b hb sid s hs w hwait hf => ?_
    have hplace := hf.place
    rw [hp] at hplace
    refine hplace.resolve_left ?_
    rintro ⟨rfl, -⟩
    exact hno s hs
  rcases n.receive_cases i sid₀ ks ids skip with he | ⟨hdone, he⟩ | ⟨s₀, hs₀, he⟩
  · rw [he]
    exact hi
  · rw [he] at hwf ⊢
    exact hskip (fun s hs => absurd (hs.2.symm.trans (hdone s hs.1)) (by simp)) hwf
  · rw [he] at hwf ⊢
    have hm : (n.onSession sid₀ (·.enqueue { op := .opReceive, wants := ks })).Inv := by
      refine hi.moves (hi.wf.onSession fun s _ hb => hb.enqueue ?_)
        (moves_onSession fun s _ hd => ⟨hd, fun w _ => step_enqueue_receive ks⟩)
      have hplace := (hi.wf.receives t (List.mem_of_getElem? ht)).place
      rw [hp] at hplace
      exact hplace
    refine hm.moveTo ht hwf fun b hb sid s hs w hwait hf => ?_
    have hplace := hf.place
    rw [hp] at hplace
    rcases hplace with ⟨rfl, hw, htr⟩ | hplace
    · refine .inr ((hm.life sid₀ s hs w).clear hwait hf.entering htr ?_)
      show Note.receive ∈ Session.notes w s.incoming
      rw [open_onSession hs₀ hs]
      refine List.mem_filterMap.mpr ⟨_, List.mem_append_right _ List.mem_cons_self, ?_⟩
      simp [Session.Op.note, hw]
    · exact hplace

/-- A publication is nothing to a call for other blocks. -/
theorem likewise_publish {b : AuthBlock} (h : w.cid ≠ b.cid) (r : Request) :
    Likewise sid w r (r.publish b) := by
  have hk : w.cid ∈ r.keys.remove b.cid ↔ w.cid ∈ r.keys := by
    rw [GoSet.mem_remove]
    exact and_iff_right h
  rw [Request.publish]
  split
  · exact ⟨Iff.rfl, and_congr_right fun _ => and_congr_right fun _ => and_congr_right fun _ => hk,
      and_congr_right fun _ => and_congr_right fun _ => not_congr hk⟩
  · exact ⟨Iff.rfl, Iff.rfl, Iff.rfl⟩

/-- A call waits after a publication if it did before; and if it has been served by it,
it waited. -/
theorem publish_waiting {b : AuthBlock} {r : Request} (hok : r.Ok) :
    ((r.publish b).Waiting sid w → r.Waiting sid w) ∧
      ((r.publish b).Served sid w → r.Served sid w ∨ r.Waiting sid w) := by
  rw [Request.publish]
  split
  · rename_i h
    refine ⟨fun hw => ⟨hw.1, hw.2.1, hw.2.2.1, (GoSet.mem_remove.mp hw.2.2.2).2⟩, fun hs => ?_⟩
    by_cases hk : w.cid ∈ r.keys
    · exact .inr ⟨hs.1, hs.2.1, hok.listening h.1, hk⟩
    · exact .inl ⟨hs.1, hs.2.1, hk⟩
  · exact ⟨id, .inl⟩

/-- **A publication**: where a call waits for the block, the want is clear. -/
theorem Inv.steps_publish (hi : n.Inv) {b : AuthBlock} {receives : List Receive}
    (hclear : ∀ sid s, n.Open sid s → ∀ w, w.cid = b.cid → (n.life sid s w).waiting →
      (n.life sid s w).Clear ∧ ¬ (n.life sid s w).fresh) :
    n.Steps { n with requests := n.requests.map (·.publish b), receives := receives } := by
  intro sid s hs w _
  refine ⟨s, hs, ?_⟩
  have hfresh : ∀ r : Request, (r.publish b).Fresh sid w ↔ r.Fresh sid w := fun r => by
    rw [Request.publish]
    split <;> exact Iff.rfl
  by_cases hw : w.cid = b.cid
  · have he : Node.life { n with requests := n.requests.map (·.publish b), receives := receives }
        sid s w = { n.life sid s w with
          waiting := ∃ r ∈ n.requests.map (·.publish b), r.Waiting sid w
          served := ∃ r ∈ n.requests.map (·.publish b), r.Served sid w } :=
      Life.ext (by simp [Node.life, hfresh]) rfl rfl rfl rfl rfl rfl rfl rfl
    rw [he]
    refine .publish _ _ ?_ ?_ (hclear sid s hs w hw)
    · rintro ⟨_, hmap, hwait⟩
      obtain ⟨r, hr, rfl⟩ := List.mem_map.mp hmap
      exact ⟨r, hr, (publish_waiting (hi.wf.requests r hr)).1 hwait⟩
    · rintro ⟨_, hmap, hs⟩
      obtain ⟨r, hr, rfl⟩ := List.mem_map.mp hmap
      exact ((publish_waiting (hi.wf.requests r hr)).2 hs).imp (fun h => ⟨r, hr, h⟩)
        fun h => ⟨r, hr, h⟩
  · have hl : ∀ r, Likewise sid w r (r.publish b) := likewise_publish hw
    have he : Node.life { n with requests := n.requests.map (·.publish b), receives := receives }
        sid s w = n.life sid s w :=
      Life.ext (by simp [Node.life, hfresh]) (by simp [Node.life, (hl _).waiting])
        (by simp [Node.life, (hl _).served]) rfl rfl rfl rfl rfl rfl
    rw [he]
    exact .refl _

/-- A call that has not sent its operation would be waiting, and its want not clear. -/
theorem Inv.unserved_publish (hi : n.Inv) {b : AuthBlock} {receives : List Receive}
    (hclear : ∀ sid s, n.Open sid s → ∀ w, w.cid = b.cid → (n.life sid s w).waiting →
      (n.life sid s w).Clear ∧ ¬ (n.life sid s w).fresh) :
    Unserved { n with requests := n.requests.map (·.publish b), receives := receives } := by
  intro r' hr' s hs ha hc w hw
  obtain ⟨r, hr, rfl⟩ := List.mem_map.mp hr'
  have hkin := Request.kin_publish b r
  rw [Request.asked_publish] at ha
  rw [Request.closed_publish] at hc
  rw [hkin.wants] at hw
  have hs : n.Open r.session s := hkin.session ▸ hs
  have hk := hi.unserved r hr s hs ha hc w hw
  refine Request.mem_keys_publish hk fun hcid => ?_
  exact (hclear r.session s hs w hcid ⟨r, hr, rfl, hw, hc, hk⟩).2 ⟨r, hr, rfl, hw, hc, ha⟩

theorem Inv.publish (hi : n.Inv) (ht : n.receives[i]? = some t) (hp : t.place = .publishing) :
    (n.publish i t).Inv := by
  have hwf := hi.wf.publish ht
  have hmem := List.mem_of_getElem? ht
  revert hwf
  rw [Node.publish]
  split
  · exact fun hwf => hi.steps hwf (Steps.refl n) (fun _ _ => id) hi.unserved fun t' ht' =>
      .inl (List.mem_of_mem_eraseIdx ht')
  · rename_i b wanted hwanted
    intro hwf
    have hb : b ∈ t.wanted := hwanted ▸ List.mem_cons_self
    have hfl : ∀ sid s, n.Open sid s → ∀ w, w.cid = b.cid → (n.life sid s w).waiting →
        (n.life sid s w).Clear ∧ ¬ (n.life sid s w).fresh := by
      intro sid s hs w hw hwait
      have hf := hi.flight t hmem b hb sid s hs w hw hwait
      have hplace := hf.place
      rw [hp] at hplace
      exact ⟨hplace, fun hfr => hf.entering (.inl (.inl hfr))⟩
    have hsteps : n.Steps { n with
        requests := n.requests.map (·.publish b)
        receives := n.receives.modify i fun t => { t with wanted := wanted } } :=
      hi.steps_publish hfl
    refine hi.steps hwf hsteps (fun sid w hw => requested_publish b _ ▸ hw) ?_ fun t' ht' => ?_
    · exact hi.unserved_publish hfl
    · obtain ⟨j, y, hy, rfl⟩ := Lib.mem_modify.mp ht'
      split
      · rename_i hij
        subst hij
        obtain rfl := Option.some.inj (ht.symm.trans hy)
        refine .inr fun b' hb' sid s' hs' w hw hwait => ?_
        obtain ⟨s, hopen, hstep⟩ := hsteps sid s' hs' w
          (requested_publish b _ ▸ requested_of_waiting hwait)
        have hf := (hi.flight t hmem b' (hwanted ▸ List.mem_cons_of_mem b hb') sid s hopen w hw
          (hstep.waiting hwait)).step hstep hwait
        exact ⟨hf.want, hf.sender, hf.entering, hf.place⟩
      · exact .inl (List.mem_of_getElem? hy)

theorem Inv.receiveStep (hi : n.Inv) (i : Nat) (o : RangeOrder) (skip : Bool) :
    (n.receiveStep i o skip).Inv := by
  have hwf := hi.wf.receiveStep i o skip
  revert hwf
  rw [Node.receiveStep]
  split
  · exact fun _ => hi
  · rename_i t ht
    split
    · intro hwf
      have hi' : ({ n with bpm := n.bpm.receiveFrom t.sender t.haves t.dontHaves } : Node).Inv :=
        ⟨⟨hi.wf.books, hi.wf.sim, hi.wf.receives, hi.wf.requests, hi.wf.cancels⟩, hi.oneAuth,
          hi.unserved, hi.life, hi.flight⟩
      exact hi'.moveTo ht hwf fun _ _ _ _ _ _ _ _ => trivial
    · exact fun hwf => hi.lookUp ht o hwf
    · rename_i hp
      exact fun _ => hi.tell ht hp
    · rename_i hp
      exact fun _ => hi.update ht hp
    · rename_i hp
      exact fun _ => hi.receive ht hp
    · rename_i hp
      exact fun _ => hi.publish ht hp

/-! ## Runs -/

/-- A sound action keeps the invariant. -/
theorem Inv.step (hi : n.Inv) (a : Action) (hok : n.Sound a) : (n.step a).Inv := by
  have hwf := hi.wf.step a
  -- a step of a session that is nothing to any want
  have hkeeps : ∀ {sid : SessionID} {f : Session → Session}, (n.onSession sid f).Wf →
      (∀ s : Session, s.Books sid (n.Requested sid) → ∀ w, s.Keeps (n.Requested sid) w (f s)) →
      (n.onSession sid f).Inv :=
    fun hwf h => hi.moves hwf (hi.wf.moves_keeps hi.oneAuth h)
  cases a with
  | newSession sid rng d d' =>
      revert hwf
      rw [Node.step]
      split
      · rename_i h
        exact fun hwf => hi.moves hwf (moves_insert_new h.2)
      · exact fun _ => hi
  | takeOp sid now => exact hi.moves hwf (hi.wf.moves_takeOp hi.oneAuth sid now)
  | add sid =>
      refine hi.moves hwf (moves_onSession fun s _ hd => ⟨?_, fun w _ => step_passAdd⟩)
      unfold Session.passAdd at hd
      split at hd
      · split at hd <;> exact hd
      · exact hd
  | sendFirst sid now => exact hkeeps hwf fun s hb w => hb.keeps_passFirst now
  | cancelWants sid => exact hkeeps hwf fun s hb w => hb.keeps_passCancel
  | enterOp sid i => exact hkeeps hwf fun s hb w => hb.keeps_enterOp i
  | onChange sid => exact hi.moves hwf ((hi.wf.called_onChange sid).moves hi.oneAuth)
  | signal sid p b => exact hkeeps hwf fun s _ w => Session.keeps_signalAvailability p b
  | enterChange sid i => exact hkeeps hwf fun s hb w => hb.keeps_enterChange i
  | provider sid i p => exact hkeeps hwf fun s _ w => Session.keeps_foundProvider i p
  | idleTick sid now => exact hkeeps hwf fun s hb w => hb.keeps_onIdleTick now
  | periodicSearch sid i d => exact hkeeps hwf fun s _ w => (s.same_onSearchTick i d).keeps
  | setBaseTickDelay sid d => exact hkeeps hwf fun s _ w => (s.same_onBaseTickDelay d).keeps
  | fireIdle sid | fireSearch sid =>
      exact hkeeps hwf fun s _ w => ⟨rfl, Iff.rfl, fun _ => rfl, fun ht => ht, rfl⟩
  | shutdown sid => exact hi.moves hwf (moves_onSession fun s _ hd => absurd hd (by simp))
  | removeSession sid o => exact hi.moves hwf (moves_removeSession sid o)
  | getBlocks sid wants =>
      rw [Node.step]
      split
      · exact hi
      · exact hi.getBlocks hok
  | want i skip => exact hi.moves hwf (hi.wf.moves_want i skip)
  | cancel i =>
      exact hi.moves hwf (moves_onRequest (fun r _ => ⟨⟨rfl, rfl⟩, rfl, id, id⟩)
        fun r _ sid _ _ w => ⟨Iff.rfl, Iff.rfl, Iff.rfl⟩)
  | unsubscribe i =>
      refine hi.moves hwf (moves_onRequest (fun r _ => ?_) fun r _ sid _ _ w => ?_)
      · split <;> exact ⟨⟨rfl, rfl⟩, rfl, id, id⟩
      · split <;> exact ⟨Iff.rfl, Iff.rfl, Iff.rfl⟩
  | deliver i =>
      refine hi.moves hwf (moves_onRequest (fun r _ => ?_) fun r _ sid _ _ w => ?_)
      · rw [Request.deliver]
        split
        · split <;> exact ⟨⟨rfl, rfl⟩, rfl, id, id⟩
        · exact ⟨⟨rfl, rfl⟩, rfl, id, id⟩
      · rw [Request.deliver]
        split
        · split <;> exact ⟨Iff.rfl, Iff.rfl, Iff.rfl⟩
        · exact ⟨Iff.rfl, Iff.rfl, Iff.rfl⟩
  | finish i lost skip =>
      exact hi.moves hwf (hi.wf.moves_finish hi.unserved fun r hr hc s hs =>
        hok r hr hc hs.sessionDone)
  | receiveBlocksFrom sender blks haves dontHaves => exact hi.receiveBlocksFrom hok
  | receiveStep i o skip => exact hi.receiveStep i o skip

/-- A completed call has been served with every block it asks for. -/
theorem served_of_completed {r : Request} (hok : r.Ok) (hc : r.Completed) {w : Want}
    (hw : w ∈ r.wants) : w.cid ∉ r.keys := by
  obtain ⟨b, hb, hcid⟩ := hc.2 w hw
  exact hcid ▸ hok.got b (.inr hb)

theorem Inv.settled (hi : n.Inv) : n.Settled := by
  intro r hr hc s hs hd hdrained w hw hnone
  have hok := hi.wf.requests r hr
  have hl := hi.life r.session s ⟨hs, hd⟩ w
  have hwait : ¬ (n.life r.session s w).waiting := by
    rintro ⟨r', hr', hs', hw', hc', -⟩
    exact hnone r' hr' ⟨hs', hc', hw'⟩
  have hclear := (hl.served ⟨r, hr, rfl, hw, served_of_completed hok hc hw⟩).resolve_right hwait
  obtain ⟨-, hinc, hch⟩ := hdrained
  have hq : (n.life r.session s w).queue = [] := by
    show Session.notes w s.incoming = []
    rw [hinc]
    rfl
  have hhas : ¬ s.sw.isWanted w = true := fun h => by
    have := hclear.has h
    rw [hq] at this
    exact List.not_mem_nil this
  rw [SessionWants.isWanted_iff, not_or] at hhas
  refine ⟨fun ht => hclear.tracked ?_, hhas.1, fun h => hhas.2 h.2, fun hf => ?_⟩
  · show s.changes.foldl (Change.After w) (w ∈ s.sws.wants)
    rw [hch]
    exact ht
  · have := (hclear.flag hf).2
    rw [hq] at this
    exact absurd this (by simp)

/-- **A completed call leaves nothing behind**, in any state of a run of sound
actions. -/
theorem settled_of_sound (as : List Action) (hok : Meets step Sound start as) :
    Always step Settled start as :=
  always_of_meets (fun _ h => h.settled) (fun _ a h hok => h.step a hok) as inv_start hok

/-- One block asked for, received from a peer, delivered, and off all books. -/
theorem settled_of_sound_one_block :
    let w : Want := ⟨⟨[1]⟩, [5]⟩
    let tells : List Action := List.replicate 8 (.receiveStep 0 .stored false)
    let as : List Action := [.newSession 1 (fun _ => .plain) 1 1, .getBlocks 1 [w], .want 0 false,
      .takeOp 1 1, .add 1, .sendFirst 1 1, .onChange 1,
      .receiveBlocksFrom ⟨[7]⟩ [(⟨⟨[1]⟩, []⟩, [5])] [] []] ++ tells ++
      [.deliver 0, .finish 0 false false, .takeOp 1 2, .takeOp 1 2, .onChange 1]
    Meets step Sound start as ∧ (∃ r ∈ (run step start as).requests, r.Completed) ∧
      Always step Settled start as := by
  intro w tells as
  have hok : Meets step Sound start as := by decide
  exact ⟨hok, by decide, settled_of_sound as hok⟩

/-- A block that is asked for, and then added locally: the call completes, both loops
have gone through everything, and the want is still tracked. -/
theorem tracked_after_hasBlock :
    let w : Want := ⟨⟨[1]⟩, [5]⟩
    let tells : List Action := List.replicate 8 (.receiveStep 0 .stored false)
    let n := run step start ([.newSession 1 (fun _ => .plain) 1 1, .getBlocks 1 [w],
      .want 0 false, .takeOp 1 1, .add 1, .sendFirst 1 1, .onChange 1,
      .receiveBlocksFrom .empty [(⟨⟨[1]⟩, []⟩, [5])] [] []] ++ tells ++
      [.deliver 0, .finish 0 false false, .takeOp 1 2, .takeOp 1 2, .onChange 1])
    ¬ n.Settled ∧ (∀ r ∈ n.requests, r.Completed) ∧
      ∀ s ∈ n.sessions.lookup 1, s.done = false ∧ s.Drained ∧ w ∈ s.sws.wants := by
  decide

end Node

end BitswapAuth
