/-
# `BitswapAuth.ProviderQueryManager.Delivery` — providers are delivered, all and in one order

A message changes the table, and with it the list of a query:

    receivedProvider         a provider is added, and owed to every listener
    newProvideQuery          the list goes into the answer
    finishedProviderQuery    the list is final, and every listener is closed
    cancelRequest            the list stays; who leaves does not receive any more

`providers_in_order` is what follows for a client in every run.  That it gets everything in the
end is said with a number, `rank`: when the query has ended, somebody can always do a step that
makes it smaller, and nobody one that makes it greater, until the client has ended with the whole
list.
-/
import BitswapAuth.ProviderQueryManager.Clients

namespace BitswapAuth

open Lib

namespace QueryClients

open QueryEffect ProviderQueryManager

variable {s : QueryClients}

/-! ## The messages -/

section Messages

variable {k : Cid} {a : QueryLoop.Act} {r : ProviderQueryManager × List QueryEffect}

theorem record_of_status {found : ContextID → List PeerID} {pqm : ProviderQueryManager}
    {st : InProgressRequestStatus} (hst : pqm.status k = some st) :
    record found pqm k = fun c => if c = st.ctx then st.providersSoFar else found c := by
  rw [record, hst]

theorem record_of_none {found : ContextID → List PeerID} {pqm : ProviderQueryManager}
    (h : pqm.status k = none) : record found pqm k = found := by
  rw [record, h]

theorem record_setStatus (found : ContextID → List PeerID) (pqm : ProviderQueryManager) (k : Cid)
    (st : InProgressRequestStatus) : record found (pqm.setStatus k st) k =
      fun c => if c = st.ctx then st.providersSoFar else found c :=
  record_of_status (status_setStatus.trans (if_pos rfl))

/-- A list that has been noted is noted again. -/
theorem record_of_found {found : ContextID → List PeerID} {pqm : ProviderQueryManager}
    (h : ∀ st, pqm.status k = some st → found st.ctx = st.providersSoFar) :
    record found pqm k = found := by
  cases hst : pqm.status k with
  | none => exact record_of_none hst
  | some st =>
      rw [record_of_status hst]
      funext c
      split
      · rename_i hc
        rw [hc, h st hst]
      · rfl

/-- The state when a handler has changed the table and begins with its effects. -/
def begun (s : QueryClients) (k : Cid) (r : ProviderQueryManager × List QueryEffect) :
    QueryClients :=
  { s with loop := { s.loop with pqm := r.1, todo := r.2 }, found := record s.found r.1 k }

theorem handle_of_idle (hidle : s.loop.Idle) (ha : s.loop.step a = s.loop.handled r) :
    s.handle k a = s.begun k r := by
  rw [handle, ha, QueryLoop.handled, if_pos hidle]
  rfl

/-- A message that adds nothing to the list of a query. -/
theorem Held.begun {l : ListenerID} {c : QueryClient} (h : s.Held l c) (hidle : s.loop.Idle)
    (hfound : record s.found r.1 k c.query.ctx = s.found c.query.ctx) (howed : owed l r.2 = [])
    (hlisted : s.loop.pqm.Listed l → r.1.Listed l ∨ ¬ r.1.InProgress c.query.ctx ∧ .close l ∈ r.2)
    (hgone : ¬ s.loop.pqm.InProgress c.query.ctx → ¬ r.1.InProgress c.query.ctx) :
    (s.begun k r).Held l c := by
  have hlists : c.read ++ c.receivedProviders ++ owed l (s.begun k r).loop.todo =
      c.read ++ c.receivedProviders ++ owed l s.loop.todo := by
    rw [hidle.2]
    exact congrArg _ howed
  refine ⟨?_, ?_, fun hctx => ?_, h.closed⟩
  · rcases h.place with hl | ⟨hl, hc⟩ | hs
    · exact (hlisted hl).imp_right fun hl => .inl ⟨hl.1, List.mem_append_right _ hl.2⟩
    · rw [QueryLoop.log_of_idle hidle] at hc
      exact .inr (.inl ⟨hgone hl, List.mem_append_left _ hc⟩)
    · exact .inr (.inr hs)
  · show _ <+: record s.found r.1 k c.query.ctx
    rw [hfound]
    exact h.inOrder
  · show _ = record s.found r.1 k c.query.ctx
    rw [hlists, hfound]
    exact h.whole hctx

/-- Between two messages, a client that receives listens to its query as long as that is in
progress. -/
theorem Held.mem_listeners {l : ListenerID} {c : QueryClient} (h : s.Held l c) (hinv : s.Inv)
    (hidle : s.loop.Idle) (hc : s.clients.lookup l = some c) {st : InProgressRequestStatus}
    (hst : s.loop.pqm.status k = some st) : l ∈ st.listeners ↔ c.query.ctx = st.ctx := by
  constructor
  · intro hl
    rw [hinv.owner k st l c hst hl hc]
  · intro hq
    rcases h.place with ⟨k₁, st₁, hst₁, hl⟩ | ⟨hgone, -⟩ | hs
    · have howner := hinv.owner k₁ st₁ l c hst₁ hl hc
      rw [howner] at hq
      obtain rfl := hinv.loop.sound.oneContext hst₁ hst hq
      obtain rfl := Option.some.inj (hst₁.symm.trans hst)
      exact hl
    · exact absurd ⟨k, st, hst, hq.symm⟩ hgone
    · cases hidle.1.symm.trans hs

/-- A provider is added to the list of the query for the CID, and owed to its clients. -/
theorem Held.sent {l : ListenerID} {c : QueryClient} (h : s.Held l c) (hinv : s.Inv)
    (hidle : s.loop.Idle) (hc : s.clients.lookup l = some c) {st : InProgressRequestStatus}
    {ls : List ListenerID} (p : PeerID) (hst : s.loop.pqm.status k = some st)
    (hls : ls.Perm st.listeners.keys) :
    (s.begun k (s.loop.pqm.setStatus k { st with providersSoFar := st.providersSoFar ++ [p] },
      ls.map (.send · p))).Held l c := by
  have hmem : l ∈ ls ↔ c.query.ctx = st.ctx := by
    rw [hls.mem_iff, ← AList.mem_keys]
    exact h.mem_listeners hinv hidle hc hst
  have howed := owed_sends (l := l) (p := p) (hls.nodup_iff.mpr st.listeners.keys_nodup)
  have hrecord := congrFun (record_setStatus s.found s.loop.pqm k
    { st with providersSoFar := st.providersSoFar ++ [p] }) c.query.ctx
  dsimp only at hrecord
  by_cases hq : c.query.ctx = st.ctx
  · have hl := hmem.mpr hq
    rw [if_pos hl] at howed
    have hfound : st.providersSoFar = s.found c.query.ctx := by
      rw [hq, hinv.found k st hst]
    rw [if_pos hq] at hrecord
    refine ⟨.inl ?_, ?_, fun hctx => ?_, h.closed⟩
    · exact ⟨k, _, status_setStatus.trans (if_pos rfl), AList.mem_keys.mpr (hls.mem_iff.mp hl)⟩
    · show _ <+: record s.found _ k c.query.ctx
      rw [hrecord, hfound]
      exact h.inOrder.trans (List.prefix_append _ _)
    · show _ ++ owed l (ls.map (.send · p)) = record s.found _ k c.query.ctx
      have hwhole := h.whole hctx
      rw [hidle.2, owed_nil, List.append_nil] at hwhole
      rw [howed, hrecord, hfound, ← hwhole]
  · rw [if_neg fun hl => hq (hmem.mp hl)] at howed
    refine h.begun hidle (hrecord.trans (if_neg hq)) howed (fun hl => .inl ?_) ?_
    · exact hl.setStatus hst id
    · exact fun hgone hin => hgone ((Outcome.sent p hst hls).shrinks.inProgress hin)

/-- A listener leaves: the lists of the table are those that are noted. -/
theorem Inv.found_left (h : s.Inv) {st : InProgressRequestStatus} {ls : GoSet ListenerID}
    (hst : s.loop.pqm.status k = some st) : ∀ k' st',
      (s.loop.pqm.setStatus k { st with listeners := ls }).status k' = some st' →
        s.found st'.ctx = st'.providersSoFar := by
  intro k' st' hst'
  rcases status_setStatus_cases hst' with ⟨-, rfl⟩ | ⟨-, hst'⟩
  · exact h.found k st hst
  · exact h.found k' st' hst'

/-- The lists that are noted after a message about a query: those of the table, none shorter than
before, and that of a query that has ended as it was. -/
theorem Inv.record_outcome (h : s.Inv) (ho : s.loop.pqm.Outcome k r) :
    (∀ k' st', r.1.status k' = some st' → record s.found r.1 k st'.ctx = st'.providersSoFar) ∧
      (∀ c, s.found c <+: record s.found r.1 k c) ∧
      ∀ c, ¬ s.loop.pqm.InProgress c → record s.found r.1 k c = s.found c := by
  have hsame : record s.found r.1 k = s.found →
      (∀ k' st', r.1.status k' = some st' → s.found st'.ctx = st'.providersSoFar) →
      (∀ k' st', r.1.status k' = some st' → record s.found r.1 k st'.ctx = st'.providersSoFar) ∧
        (∀ c, s.found c <+: record s.found r.1 k c) ∧
        ∀ c, ¬ s.loop.pqm.InProgress c → record s.found r.1 k c = s.found c := by
    intro hrecord hfound
    rw [hrecord]
    exact ⟨hfound, fun c => List.prefix_refl _, fun c _ => rfl⟩
  cases ho with
  | nothing => exact hsame (record_of_found (h.found k)) h.found
  | @sent st ls p hst hls =>
      simp only [record_setStatus]
      refine ⟨fun k' st' hst' => ?_, fun c => ?_, fun c hc => if_neg ?_⟩
      · rcases status_setStatus_cases hst' with ⟨-, rfl⟩ | ⟨hk, hst'⟩
        · exact if_pos rfl
        · rw [if_neg fun he => hk (h.loop.sound.oneContext hst' hst he)]
          exact h.found k' st' hst'
      · split
        · rename_i hc
          rw [hc, h.found k st hst]
          exact List.prefix_append _ _
        · exact List.prefix_refl _
      · rintro rfl
        exact hc ⟨k, st, hst, rfl⟩
  | left hst hl hne => exact hsame (record_of_found (h.found_left hst k)) (h.found_left hst)
  | ended hst hls =>
      refine hsame (record_of_none (status_deleteStatus.trans (if_pos rfl))) fun k' st' hst' => ?_
      exact h.found k' st' (status_deleteStatus_some hst').2

/-- A client that receives when a message about a query is handled; one that leaves is no such. -/
theorem Held.outcome {l : ListenerID} {c : QueryClient} (hheld : s.Held l c) (h : s.Inv)
    (hidle : s.loop.Idle) (hc : s.clients.lookup l = some c) (ho : s.loop.pqm.Outcome k r)
    (hstays : r.2 ≠ [.close l]) : (s.begun k r).Held l c := by
  have hgone : ¬ s.loop.pqm.InProgress c.query.ctx → ¬ r.1.InProgress c.query.ctx :=
    mt ho.shrinks.inProgress
  cases ho with
  | nothing => exact hheld.begun hidle (congrFun (record_of_found (h.found k)) _) rfl .inl hgone
  | sent p hst hls => exact hheld.sent h hidle hc p hst hls
  | @left st l₀ hst hl₀ hne =>
      refine hheld.begun hidle (congrFun (record_of_found (h.found_left hst k)) _) rfl
        (fun hl => .inl (hl.setStatus hst fun hl => ?_)) hgone
      refine GoSet.mem_remove.mpr ⟨?_, hl⟩
      rintro rfl
      exact hstays rfl
  | @ended st ls hst hls =>
      have hnone : (s.loop.pqm.deleteStatus k).status k = none :=
        status_deleteStatus.trans (if_pos rfl)
      refine hheld.begun hidle (congrFun (record_of_none hnone) _)
        (owed_of_ends fun e => ends_of_mem) (fun hl => ?_) hgone
      refine (hl.deleteStatus hst).imp_right fun hl => ⟨fun hin => ?_, ?_⟩
      · refine ((inProgress_deleteStatus h.loop.sound hst _).mp hin).2 ?_
        rw [h.owner k st l c hst hl hc]
      · exact mem_ends.mpr (.inl ⟨l, hls.mem_iff.mpr (AList.mem_keys.mp hl), rfl⟩)

/-- A message about a query; `cancels` is what is on its way after it. -/
theorem inv_outcome (h : s.Inv) (hidle : s.loop.Idle) (ho : s.loop.pqm.Outcome k r)
    (hleaves : ∀ l, r.2 = [.close l] → ∃ k', (l, k') ∈ s.cancels)
    {cancels : List (ListenerID × Cid)} (hcancels : ∀ e ∈ cancels, e ∈ s.cancels) :
    ({ s.begun k r with cancels := cancels } : QueryClients).Inv := by
  obtain ⟨hfound, hgrows, hstill⟩ := h.record_outcome ho
  obtain ⟨hnext, hnextc⟩ := ho.next
  refine ⟨h.loop.handled hidle (ho.proper h.loop.sound), hfound,
    fun k' st' l c hst' hl hc => ?_, fun l hl => ?_, fun q hq => absurd hq (ho.quiet.1 q),
    fun ps l hps => absurd hps (ho.quiet.2 ps l),
    fun e he => ⟨?_, (h.cancels e (hcancels e he)).2⟩, fun l c hc => ?_⟩
  · obtain ⟨st, hst, hctx, hsub⟩ := ho.shrinks k' st' hst'
    rw [h.owner k' st l c hst (hsub l hl) hc, hctx]
  · show l < r.1.nextListener
    rw [hnext]
    exact h.known l hl
  · show e.1 < r.1.nextListener
    rw [hnext]
    exact (h.cancels e (hcancels e he)).1
  · have hkeeps : (s.begun k r).Keeps l c := by
      refine (h.clients l c hc).move (le_of_eq hnextc.symm) id (hgrows _)
        (fun hgone => ⟨hstill _ hgone, fun hin => hgone (ho.shrinks.inProgress hin)⟩)
        fun hp hheld => ?_
      -- who leaves has sent a cancel message, and does not receive any more
      refine hheld.outcome h hidle hc ho fun he => ?_
      obtain ⟨k', hsent⟩ := hleaves l he
      rcases (h.cancels _ hsent).2 c hc with hp' | hp' <;> cases hp.symm.trans hp'
    exact hkeeps.of_eq rfl rfl

/-- The lists that are noted after a new query: that of the query joined, and the others as they
were. -/
theorem Inv.record_joined (h : s.Inv) {st : InProgressRequestStatus}
    (hj : s.loop.pqm.Joined k st r) : record s.found r.1 k st.ctx = st.providersSoFar ∧
      ∀ c < s.loop.pqm.nextContext, record s.found r.1 k c = s.found c := by
  rw [record_of_status hj.status_self]
  refine ⟨if_pos rfl, fun c hc => ?_⟩
  dsimp only
  split
  · rename_i he
    subst he
    rcases hj.query with ⟨hst, -⟩ | ⟨-, rfl, -⟩
    · exact (h.found k st hst).symm
    · exact absurd hc (Nat.lt_irrefl _)
  · rfl

theorem Keeps.joined {l : ListenerID} {c : QueryClient} (hkeeps : s.Keeps l c) (h : s.Inv)
    (hidle : s.loop.Idle) {st : InProgressRequestStatus} (hj : s.loop.pqm.Joined k st r) :
    (s.begun k r).Keeps l c := by
  have hsame := (h.record_joined hj).2 c.query.ctx hkeeps.ctx
  have hgone := hj.gone hkeeps.ctx
  have hgrows : s.found c.query.ctx <+: (s.begun k r).found c.query.ctx := by
    show _ <+: record s.found r.1 k c.query.ctx
    simp only [hsame, List.prefix_refl]
  refine hkeeps.move hj.nextContext_le id hgrows (fun hno => ⟨hsame, hgone hno⟩) fun _ hheld => ?_
  refine hheld.begun hidle hsame ?_ (fun hl => .inl (hj.listed hl)) hgone
  exact owed_of_not_uses fun e he => (hj.mem_effects he).2 l

theorem keeps_joining (s : QueryClients) (l : ListenerID) {q : FindProviderRequest}
    (hctx : q.ctx < s.loop.pqm.nextContext) : s.Keeps l (.joining q) where
  ctx := hctx
  inOrder := List.nil_prefix
  joining _ := rfl
  receiving hp := by cases hp
  cancelling hp := by cases hp
  ended hp := by cases hp

theorem join_of_idle (hidle : s.loop.Idle) {st : InProgressRequestStatus}
    (hj : s.loop.pqm.Joined k st (s.loop.pqm.newProvideQuery k none)) :
    s.join k = { s.begun k (s.loop.pqm.newProvideQuery k none) with
      clients := s.clients.insert s.loop.pqm.nextListener (.joining ⟨k, st.ctx⟩) } := by
  rw [join, handle_of_idle hidle rfl]
  have hst : (s.begun k (s.loop.pqm.newProvideQuery k none)).loop.pqm.status k = _ := hj.status_self
  simp only [hst]
  rfl

/-- A client is the caller or one of before. -/
theorem Inv.lookup_joined (h : s.Inv) {l : ListenerID} {c c₀ : QueryClient}
    (hc : (s.clients.insert s.loop.pqm.nextListener c₀).lookup l = some c) :
    (l = s.loop.pqm.nextListener ∧ c = c₀) ∨
      (l < s.loop.pqm.nextListener ∧ s.clients.lookup l = some c) :=
  (GoMap.lookup_insert_eq_some.mp hc).imp_right fun hc =>
    ⟨h.known l (GoMap.mem_of_lookup hc.2), hc.2⟩

theorem inv_joined (h : s.Inv) (hidle : s.loop.Idle) {st : InProgressRequestStatus}
    (hj : s.loop.pqm.Joined k st r) :
    ({ s.begun k r with
      clients := s.clients.insert s.loop.pqm.nextListener (.joining ⟨k, st.ctx⟩) } :
        QueryClients).Inv := by
  have hproper := hj.proper h.loop.sound
  obtain ⟨hown, hsame⟩ := h.record_joined hj
  have hmem : ∀ {e}, e ∈ r.2 → e ∈ joins k st s.loop.pqm.nextListener := fun he =>
    hj.effects.subset he
  refine ⟨h.loop.handled hidle hproper, fun k' st' hst' => ?_, fun k' st' l c hst' hl hc => ?_,
    fun l hl => ?_, fun q hq => ?_, fun ps l hps => ?_, fun e he => ⟨?_, fun c hc => ?_⟩,
    fun l c hc => ?_⟩
  · rcases hj.status_cases hst' with ⟨-, rfl⟩ | ⟨-, hst'⟩
    · exact hown
    · exact (hsame _ (h.loop.sound.context hst')).trans (h.found k' st' hst')
  · rcases h.lookup_joined hc with ⟨rfl, rfl⟩ | ⟨hlt, hold⟩
    · rcases hj.status_cases hst' with ⟨rfl, rfl⟩ | ⟨-, hst'⟩
      · rfl
      · exact absurd (h.loop.sound.listener hst' hl) (Nat.lt_irrefl _)
    · rcases hj.status_cases hst' with ⟨rfl, rfl⟩ | ⟨-, hst'⟩
      · have hl : l ∈ st.listeners := (GoSet.mem_add.mp hl).resolve_left (Nat.ne_of_lt hlt)
        exact h.owner k' st l c (hj.old hl) hl hold
      · exact h.owner k' st' l c hst' hl hold
  · show l < r.1.nextListener
    rw [hj.nextListener]
    rcases (AList.mem_insert _).mp hl with rfl | hl
    · exact Nat.lt_succ_self _
    · exact Nat.lt_succ_of_lt (h.known l hl)
  · -- the query is a new one, so nobody has joined it before
    obtain rfl := joins_find (hmem hq)
    rcases hj.query with ⟨hst, -⟩ | ⟨-, rfl, -⟩
    · cases (hj.isNew _ hq).symm.trans hst
    · refine ⟨hown, fun l c hc hctx hp => ?_⟩
      rcases h.lookup_joined hc with ⟨-, rfl⟩ | ⟨-, hc⟩
      · cases hp
      · exact absurd (h.clients l c hc).ctx (by rw [hctx]; exact Nat.lt_irrefl _)
  · obtain ⟨rfl, rfl⟩ := joins_answer (hmem hps)
    refine ⟨⟨k, _, hj.status_self, GoSet.mem_add.mpr (.inl rfl)⟩, fun c hc => ?_⟩
    rcases h.lookup_joined hc with ⟨-, rfl⟩ | ⟨hlt, -⟩
    · exact hown.symm
    · exact absurd hlt (Nat.lt_irrefl _)
  · show e.1 < r.1.nextListener
    rw [hj.nextListener]
    exact Nat.lt_succ_of_lt (h.cancels e he).1
  · rcases h.lookup_joined hc with ⟨hl, -⟩ | ⟨-, hc⟩
    · exact absurd (h.cancels e he).1 (by rw [hl]; exact Nat.lt_irrefl _)
    · exact (h.cancels e he).2 c hc
  · rcases h.lookup_joined hc with ⟨rfl, rfl⟩ | ⟨-, hc⟩
    · have hctx := hproper.sound.context hj.status_self
      exact keeps_joining _ _ hctx
    · exact ((h.clients l c hc).joined h hidle hj).of_eq rfl rfl

end Messages

/-! ## Runs -/

theorem inv_loop (h : s.Inv) {loop : QueryLoop} (hloop : loop.Inv) (hpqm : loop.pqm = s.loop.pqm)
    (hctx : s.loop.ctxDone = true → loop.ctxDone = true)
    (hfind : ∀ r, .find r ∈ loop.todo → .find r ∈ s.loop.todo)
    (hanswer : ∀ ps l, .answer ps l ∈ loop.todo → .answer ps l ∈ s.loop.todo)
    (hheld : ∀ l c, s.Held l c → ({ s with loop := loop } : QueryClients).Held l c) :
    ({ s with loop := loop } : QueryClients).Inv := by
  refine h.replace hloop hpqm hfind hanswer fun l c hc => ⟨c, hc, rfl, .inl, id, ?_⟩
  refine (h.clients l c hc).move ?_ hctx (List.prefix_refl _) ?_ fun _ => hheld l c
  · show _ ≤ loop.pqm.nextContext
    rw [hpqm]
  · show _ → _ ∧ ¬ loop.pqm.InProgress c.query.ctx
    rw [hpqm]
    exact fun hgone => ⟨rfl, hgone⟩

theorem inv_shutdown (h : s.Inv) (hctx : s.loop.ctxDone = true) (hidle : s.loop.Idle)
    (o : RangeOrder) (ol : Cid → RangeOrder) :
    ({ s with loop := { s.loop with
      stopped := true, todo := s.loop.pqm.cleanupInProcessRequests o ol } } :
        QueryClients).Inv := by
  have hends := s.loop.pqm.ends_cleanupInProcessRequests o ol
  refine inv_loop h (QueryLoop.inv_shutdown h.loop hctx hidle o ol) rfl id
    (fun r hr => absurd (hends _ hr) id) (fun ps l hps => absurd (hends _ hps) id)
    fun l c hheld => ?_
  refine ⟨.inr (.inr rfl), hheld.inOrder, fun hno => ?_, hheld.closed⟩
  cases hctx.symm.trans hno

/-- What an act of the loop can do; who leaves a query that goes on has asked for it. -/
inductive LoopSteps (s : QueryClients) : QueryClients → Prop
  | stay : LoopSteps s s
  | joined {k : Cid} {st : InProgressRequestStatus} {r : ProviderQueryManager × List QueryEffect}
      (hidle : s.loop.Idle) (hj : s.loop.pqm.Joined k st r) :
      LoopSteps s { s.begun k r with
        clients := s.clients.insert s.loop.pqm.nextListener (.joining ⟨k, st.ctx⟩) }
  | told {k : Cid} {r : ProviderQueryManager × List QueryEffect}
      {cancels : List (ListenerID × Cid)} (hidle : s.loop.Idle) (ho : s.loop.pqm.Outcome k r)
      (hleaves : ∀ l, r.2 = [.close l] → ∃ k', (l, k') ∈ s.cancels)
      (hcancels : ∀ e ∈ cancels, e ∈ s.cancels) :
      LoopSteps s { s.begun k r with cancels := cancels }
  | performs {s' : QueryClients} (hs : s.Performs s') : LoopSteps s s'
  | giveUp (hctx : s.loop.ctxDone = true) :
      LoopSteps s { s with loop := s.loop.giveUp }
  | cancelContext : LoopSteps s { s with loop := { s.loop with ctxDone := true } }
  | shutdown (hctx : s.loop.ctxDone = true) (hidle : s.loop.Idle) (o : RangeOrder)
      (ol : Cid → RangeOrder) :
      LoopSteps s { s with loop := { s.loop with
        stopped := true, todo := s.loop.pqm.cleanupInProcessRequests o ol } }

theorem loopSteps_step (s : QueryClients) (a : QueryLoop.Act) :
    s.LoopSteps (s.step (.loop a)) := by
  cases a with
  | newQuery k =>
      rw [step]
      split
      · rename_i hidle
        obtain ⟨st, hj⟩ := s.loop.pqm.exists_joined k
        rw [join_of_idle hidle hj]
        exact .joined hidle hj
      · exact .stay
  | received k p o =>
      rw [step]
      split
      · rename_i hidle
        rw [handle_of_idle hidle rfl]
        refine .told hidle (outcome_receivedProvider p o) (fun l he => ?_) fun _ hc => hc
        have hclose : l ∈ closes (s.loop.pqm.receivedProvider k p o none).2 :=
          mem_closes.mpr (he ▸ List.mem_singleton_self _)
        rw [closes_receivedProvider] at hclose
        cases hclose
      · exact .stay
  | finished k o =>
      rw [step]
      split
      · rename_i hidle
        rw [handle_of_idle hidle rfl]
        refine .told hidle (outcome_finishedProviderQuery o) (fun l he => ?_) fun _ hc => hc
        rw [finishedProviderQuery] at he
        split at he
        · cases he
        · rename_i st hst
          have hmem : .cancelFn st.ctx ∈ [QueryEffect.close l] :=
            he ▸ List.mem_append_right _ (List.mem_singleton_self _)
          cases List.mem_singleton.mp hmem
      · exact .stay
  | cancel l k =>
      rw [step]
      split
      · rename_i hready
        rw [handle_of_idle hready.1 rfl]
        refine .told hready.1 (outcome_cancelRequest l) (fun l' he => ⟨k, ?_⟩)
          fun _ => List.mem_of_mem_erase
        have hclose : l' ∈ closes (s.loop.pqm.cancelRequest l k).2 :=
          mem_closes.mpr (he ▸ List.mem_singleton_self _)
        obtain rfl : l' = l := closes_cancelRequest hclose
        exact hready.2
      · exact .stay
  | perform => exact .performs s.performs_perform
  | giveUp =>
      rw [step, giveUp]
      split
      · rename_i hctx
        exact .giveUp hctx
      · exact .stay
  | cancelContext => exact .cancelContext
  | shutdown o ol =>
      rw [step, QueryLoop.step]
      split
      · rename_i hready
        exact .shutdown hready.1 hready.2 o ol
      · exact .stay

theorem inv_loopSteps (h : s.Inv) {s' : QueryClients} (hs : s.LoopSteps s') : s'.Inv := by
  cases hs with
  | stay => exact h
  | joined hidle hj => exact inv_joined h hidle hj
  | told hidle ho hleaves hcancels => exact inv_outcome h hidle ho hleaves hcancels
  | performs hs => exact inv_performs h hs
  | giveUp hctx => exact inv_giveUp h hctx
  | cancelContext =>
      have hinv := QueryLoop.inv_step s.loop .cancelContext h.loop
      exact inv_loop h hinv rfl (fun _ => rfl) (fun _ hr => hr) (fun _ _ hps => hps)
        fun l c hheld => ⟨hheld.place, hheld.inOrder, fun hno => (by cases hno),
          hheld.closed⟩
  | shutdown hctx hidle o ol => exact inv_shutdown h hctx hidle o ol

theorem inv_step (s : QueryClients) (a : Act) (h : s.Inv) : (s.step a).Inv := by
  cases a with
  | loop a => exact inv_loopSteps h (s.loopSteps_step a)
  | client l a =>
      rw [step]
      split
      · rename_i c hc
        exact inv_clientStep h a hc
      · exact h

theorem inv_run (acts : List Act) : (run step start acts).Inv :=
  run_invariant inv_step acts inv_start

theorem Inv.found_loopSteps (h : s.Inv) {s' : QueryClients} (hs : s.LoopSteps s') {q : ContextID}
    (hq : q < s.loop.pqm.nextContext) (hgone : ¬ s.loop.pqm.InProgress q) :
    s'.found q = s.found q := by
  cases hs with
  | joined hidle hj => exact (h.record_joined hj).2 q hq
  | told hidle ho hleaves hcancels => exact (h.record_outcome ho).2.2 q hgone
  | performs hs => cases hs <;> rfl
  | _ => rfl

/-- The list of a query that has ended does not change any more. -/
theorem Inv.found_step (h : s.Inv) (a : Act) {q : ContextID} (hq : q < s.loop.pqm.nextContext)
    (hgone : ¬ s.loop.pqm.InProgress q) : (s.step a).found q = s.found q := by
  cases a with
  | loop a => exact h.found_loopSteps (s.loopSteps_step a) hq hgone
  | client l a =>
      rw [step]
      split <;> rfl

/-! ## The end of a query -/

/-- How long it takes at most until the channel is closed, when it is about to be. -/
def pending (loop : QueryLoop) (l : ListenerID) : Nat :=
  if l ∈ closes loop.done then 0 else loop.todo.length

/-- How much a client has before it, when its query has ended: the close of its channel, what it
has received, and the end of its loop. -/
def rank (s : QueryClients) (l : ListenerID) : Nat :=
  match s.clients.lookup l with
  | some c =>
      if c.phase = .ended then 0
      else pending s.loop l + 2 * c.receivedProviders.length + (if c.incoming then 1 else 0) + 1
  | none => 0

section Ends

variable {l : ListenerID} {c c' : QueryClient}

theorem rank_ended (hc : s.clients.lookup l = some c) (hp : c.phase = .ended) : s.rank l = 0 := by
  rw [rank, hc]
  exact if_pos hp

theorem rank_receiving (hc : s.clients.lookup l = some c) (hp : c.phase = .receiving) :
    s.rank l = pending s.loop l + 2 * c.receivedProviders.length +
      (if c.incoming then 1 else 0) + 1 := by
  rw [rank, hc]
  exact if_neg (by simp [hp])

theorem pending_perform_lt {loop : QueryLoop} {e : QueryEffect} {es : List QueryEffect}
    (htodo : loop.todo = e :: es) (hl : l ∉ closes loop.done) :
    pending loop.perform l < pending loop l := by
  rw [QueryLoop.perform_of_cons htodo, pending, pending, if_neg hl, htodo]
  split
  · exact Nat.succ_pos _
  · exact Nat.lt_succ_self _

theorem pending_perform (loop : QueryLoop) (l : ListenerID) :
    pending loop.perform l ≤ pending loop l := by
  cases htodo : loop.todo with
  | nil => rw [QueryLoop.perform_of_nil htodo]
  | cons e es =>
      by_cases hl : l ∈ closes loop.done
      · rw [QueryLoop.perform_of_cons htodo, pending, pending, closes_append,
          if_pos (List.mem_append_left _ hl), if_pos hl]
      · exact Nat.le_of_lt (pending_perform_lt htodo hl)

theorem step_client (a : QueryClient.Act) (hc : s.clients.lookup l = some c) :
    s.step (.client l a) = s.clientStep l a c := by
  rw [step, hc]

theorem lookup_clientStep (a : QueryClient.Act) : (s.clientStep l a c).clients.lookup l =
    some (c.step s.loop.ctxDone (decide (l ∈ closes s.loop.done)) a) :=
  AList.lookup_insert _

/-- The handler does something that nobody has to be ready for. -/
theorem perform_of_ends {e : QueryEffect} {es : List QueryEffect} (htodo : s.loop.todo = e :: es)
    (he : e.Ends) : s.perform = { s with loop := s.loop.perform } := by
  have hown : ¬ HandsOver e := by
    cases e with
    | close l => exact id
    | cancelFn c => exact id
    | _ => exact absurd he id
  rw [perform, if_neg, htodo]
  · cases e with
    | close l => rfl
    | cancelFn c => rfl
    | _ => exact absurd he id
  · rw [htodo]
    rintro ⟨-, e', he', hover⟩
    obtain rfl := Option.some.inj he'
    exact hown hover

/-- A client whose query has ended, while nobody's context is done. -/
structure Finishing (s : QueryClients) (l : ListenerID) (c : QueryClient) : Prop where
  client : s.clients.lookup l = some c
  receiving : c.phase = .receiving
  gone : ¬ s.loop.pqm.InProgress c.query.ctx
  session : c.sessionDone = false
  manager : s.loop.ctxDone = false

/-- Its channel is closed, or is about to be. -/
theorem Finishing.closed (hf : s.Finishing l c) (h : s.Inv) : .close l ∈ s.loop.log := by
  rcases ((h.clients l c hf.client).receiving hf.receiving).place with hl | hl | hs
  · obtain ⟨k, st, hst, hl⟩ := hl
    refine absurd ⟨k, st, hst, ?_⟩ hf.gone
    rw [h.owner k st l c hst hl hf.client]
  · exact hl.2
  · cases hf.manager.symm.trans (h.loop.stopped hs)

theorem Finishing.not_sent (hf : s.Finishing l c) (h : s.Inv) (p : PeerID) :
    .send l p ∉ s.loop.todo := by
  intro hsend
  rcases List.mem_append.mp (hf.closed h) with hc | hc
  · exact (List.pairwise_append.mp h.loop.respects).2.2 _ hc _ hsend l rfl rfl
  · rcases h.loop.doing.ends_or with hall | hnone
    · exact hall _ hsend
    · exact hnone _ hc trivial

/-- The channel is closed: the steps of the client follow the conditions of its loop. -/
theorem Finishing.can_client (hf : s.Finishing l c) (hclosed : l ∈ closes s.loop.done) :
    ∃ a ∈ [QueryClient.Act.outgoing, .incomingClosed, .leave],
      (s.step (.client l a)).rank l < s.rank l := by
  have hrank := rank_receiving hf.client hf.receiving
  have hp := hf.receiving
  have hown : ∀ a c', c.step s.loop.ctxDone (decide (l ∈ closes s.loop.done)) a = c' →
      (s.step (.client l a)).clients.lookup l = some c' ∧
        (s.step (.client l a)).loop = s.loop := by
    rintro a c' rfl
    rw [step_client a hf.client]
    exact ⟨lookup_clientStep a, rfl⟩
  cases hps : c.receivedProviders with
  | cons p ps =>
      obtain ⟨hc', hloop⟩ := hown .outgoing
        { c with receivedProviders := ps, read := c.read ++ [p] }
        (by simp only [QueryClient.step, hp, hps])
      refine ⟨.outgoing, by simp, ?_⟩
      rw [rank_receiving hc' hp, hloop, hrank, hps]
      simp only [List.length_cons]
      omega
  | nil =>
      cases hin : c.incoming with
      | true =>
          obtain ⟨hc', hloop⟩ := hown .incomingClosed { c with incoming := false }
            (by simp only [QueryClient.step, hp, hclosed, decide_true, if_true])
          refine ⟨.incomingClosed, by simp, ?_⟩
          rw [rank_receiving hc' hp, hloop, hrank, hin]
          simp
      | false =>
          obtain ⟨hc', -⟩ := hown .leave { c with phase := .ended }
            (by rw [QueryClient.step, if_pos ⟨hp, hps, hin⟩])
          refine ⟨.leave, by simp, ?_⟩
          rw [rank_ended hc' rfl, hrank]
          exact Nat.succ_pos _

/-- The channel is about to be closed: the handler under way only ends things. -/
theorem Finishing.can_perform (hf : s.Finishing l c) (h : s.Inv)
    (hclosed : l ∉ closes s.loop.done) : (s.step (.loop .perform)).rank l < s.rank l := by
  have hclose : .close l ∈ s.loop.todo :=
    (List.mem_append.mp (hf.closed h)).resolve_left fun hc => hclosed (mem_closes.mpr hc)
  have hends : ∀ e ∈ s.loop.todo, e.Ends := h.loop.doing.ends_or.resolve_right fun hno =>
    hno _ hclose trivial
  obtain ⟨e, es, htodo⟩ := List.exists_cons_of_ne_nil (List.ne_nil_of_mem hclose)
  have hs : s.step (.loop .perform) = { s with loop := s.loop.perform } :=
    perform_of_ends htodo (hends e (htodo ▸ List.mem_cons_self))
  have hlt := pending_perform_lt htodo hclosed
  have hc' : (s.step (.loop .perform)).clients.lookup l = some c := by
    rw [hs]
    exact hf.client
  rw [rank_receiving hc' hf.receiving, rank_receiving hf.client hf.receiving, hs]
  show pending s.loop.perform l + _ + _ + _ < _
  omega

/-- **Somebody can act**: the handler that is about to close the channel, or the client. -/
theorem Finishing.can (hf : s.Finishing l c) (h : s.Inv) :
    ∃ a ∈ [Act.loop .perform, .client l .outgoing, .client l .incomingClosed, .client l .leave],
      (s.step a).rank l < s.rank l := by
  by_cases hclosed : l ∈ closes s.loop.done
  · obtain ⟨a, ha, hlt⟩ := hf.can_client hclosed
    refine ⟨.client l a, List.mem_cons_of_mem _ ?_, hlt⟩
    exact List.mem_map_of_mem (f := Act.client l) ha
  · exact ⟨.loop .perform, List.mem_cons_self, hf.can_perform h hclosed⟩

/-- The client has not moved, and neither its query nor the close of its channel has. -/
structure Unmoved (s s' : QueryClients) (l : ListenerID) (c : QueryClient) : Prop where
  client : s'.clients.lookup l = some c
  gone : ¬ s'.loop.pqm.InProgress c.query.ctx
  pending : pending s'.loop l ≤ pending s.loop l

theorem Finishing.unmoved_self (hf : s.Finishing l c) : s.Unmoved s l c :=
  ⟨hf.client, hf.gone, le_refl _⟩

/-- Between two messages the channel has been closed, so that no message delays it. -/
theorem Finishing.pending_begun (hf : s.Finishing l c) (h : s.Inv) (hidle : s.loop.Idle) (k : Cid)
    {r : ProviderQueryManager × List QueryEffect} :
    pending (s.begun k r).loop l ≤ pending s.loop l := by
  have hclosed := hf.closed h
  rw [QueryLoop.log_of_idle hidle] at hclosed
  have hzero : pending (s.begun k r).loop l = 0 := if_pos (mem_closes.mpr hclosed)
  rw [hzero]
  exact Nat.zero_le _

/-- Another client is replaced, and the handler under way has done the next thing. -/
theorem Finishing.unmoved_insert (hf : s.Finishing l c) {l' : ListenerID} {c₁ : QueryClient}
    (hne : l ≠ l') :
    s.Unmoved { s with loop := s.loop.perform, clients := s.clients.insert l' c₁ } l c := by
  refine ⟨GoMap.lookup_insert_eq_some.mpr (.inr ⟨hne, hf.client⟩), ?_, pending_perform s.loop l⟩
  show ¬ s.loop.perform.pqm.InProgress c.query.ctx
  rw [s.loop.pqm_perform]
  exact hf.gone

theorem Finishing.unmoved_performs (hf : s.Finishing l c) (h : s.Inv) {s' : QueryClients}
    (hs : s.Performs s') : s.Unmoved s' l c := by
  cases hs with
  | stay => exact hf.unmoved_self
  | answered htodo hc hp =>
      refine hf.unmoved_insert ?_
      rintro rfl
      obtain rfl := Option.some.inj (hc.symm.trans hf.client)
      cases hf.receiving.symm.trans hp
  | taken htodo hctx hc hc' =>
      refine hf.unmoved_insert ?_
      rintro rfl
      exact hf.not_sent h _ (htodo ▸ List.mem_cons_self)
  | other htodo howed =>
      refine ⟨hf.client, ?_, pending_perform s.loop l⟩
      show ¬ s.loop.perform.pqm.InProgress c.query.ctx
      rw [s.loop.pqm_perform]
      exact hf.gone

theorem Finishing.unmoved_loopSteps (hf : s.Finishing l c) (h : s.Inv) {s' : QueryClients}
    (hs : s.LoopSteps s') (hctx : s'.loop.ctxDone = false) : s.Unmoved s' l c := by
  cases hs with
  | stay => exact hf.unmoved_self
  | @joined k st r hidle hj =>
      have hkeeps := h.clients l c hf.client
      have hlt := h.known l (GoMap.mem_of_lookup hf.client)
      exact ⟨GoMap.lookup_insert_eq_some.mpr (.inr ⟨Nat.ne_of_lt hlt, hf.client⟩),
        hj.gone hkeeps.ctx hf.gone, hf.pending_begun h hidle k⟩
  | @told k r cancels hidle ho hleaves hcancels =>
      exact ⟨hf.client, fun hin => hf.gone (ho.shrinks.inProgress hin), hf.pending_begun h hidle k⟩
  | performs hs => exact hf.unmoved_performs h hs
  | giveUp hd => cases hf.manager.symm.trans hd
  | cancelContext => cases hctx
  | shutdown hd hidle o ol => cases hf.manager.symm.trans hd

theorem Finishing.steps (hf : s.Finishing l c) {closed : Bool}
    (hc' : c.Steps s.loop.ctxDone closed c') {s' : QueryClients} (hloop : s'.loop = s.loop)
    (hclient : s'.clients.lookup l = some c') (hs : c'.sessionDone = false) :
    (c'.phase = .ended ∨ s'.Finishing l c') ∧ s'.rank l ≤ s.rank l := by
  have hrank := rank_receiving hf.client hf.receiving
  have hended : c'.phase = .ended →
      (c'.phase = .ended ∨ s'.Finishing l c') ∧ s'.rank l ≤ s.rank l := by
    intro hp
    rw [rank_ended hclient hp]
    exact ⟨.inl hp, Nat.zero_le _⟩
  have hgoes : c'.phase = .receiving → c'.query = c.query →
      c'.receivedProviders.length ≤ c.receivedProviders.length →
      (c'.incoming = true → c.incoming = true) →
      (c'.phase = .ended ∨ s'.Finishing l c') ∧ s'.rank l ≤ s.rank l := by
    intro hp hq hlen hin
    refine ⟨.inr ⟨hclient, hp, ?_, hs, hloop ▸ hf.manager⟩, ?_⟩
    · rw [hloop, hq]
      exact hf.gone
    · rw [rank_receiving hclient hp, hrank, hloop]
      have hle : (if c'.incoming then 1 else 0) ≤ if c.incoming then 1 else 0 := by
        cases hi : c'.incoming with
        | true => rw [hin hi]
        | false => exact Nat.zero_le _
      omega
  cases hc' with
  | stay => exact hgoes hf.receiving rfl (le_refl _) id
  | cancelSession => cases hs
  | managerDone hd => exact hended rfl
  | sessionDone hd hr hnew => cases hf.session.symm.trans hd
  | incomingClosed hb hr => exact hgoes hr rfl (le_refl _) fun hi => by cases hi
  | cleared hp => exact hended rfl
  | outgoing hr hps =>
      refine hgoes hr rfl ?_ id
      rw [hps]
      exact Nat.le_succ _
  | leave hr hps hin => exact hended rfl
  | sendCancel hp => cases hf.receiving.symm.trans hp

/-- **Nobody can delay it**: a client whose query has ended stays one or has ended itself, with no
more before it, as long as nobody's context is done. -/
theorem Finishing.keeps (hf : s.Finishing l c) (h : s.Inv) (a : Act)
    (hctx : (s.step a).loop.ctxDone = false) :
    ∃ c', (s.step a).clients.lookup l = some c' ∧ c'.query = c.query ∧
      (c'.sessionDone = false → (c'.phase = .ended ∨ (s.step a).Finishing l c') ∧
        (s.step a).rank l ≤ s.rank l) := by
  cases a with
  | loop a =>
      obtain ⟨hc, hgone, hpending⟩ := hf.unmoved_loopSteps h (s.loopSteps_step a) hctx
      refine ⟨c, hc, rfl, fun hs => ⟨.inr ⟨hc, hf.receiving, hgone, hs, hctx⟩, ?_⟩⟩
      rw [rank_receiving hc hf.receiving, rank_receiving hf.client hf.receiving]
      omega
  | client l' a =>
      cases hc₁ : s.clients.lookup l' with
      | none =>
          have hs : s.step (.client l' a) = s := by rw [step, hc₁]
          rw [hs]
          exact ⟨c, hf.client, rfl, fun _ => ⟨.inr hf, le_refl _⟩⟩
      | some c₁ =>
          rw [step_client a hc₁]
          by_cases hl : l = l'
          · subst hl
            obtain rfl := Option.some.inj (hc₁.symm.trans hf.client)
            have hsteps := c₁.steps_step s.loop.ctxDone (decide (l ∈ closes s.loop.done)) a
            exact ⟨_, lookup_clientStep a, hsteps.query,
              hf.steps hsteps rfl (lookup_clientStep a)⟩
          · have hsame : (s.clientStep l' a c₁).clients.lookup l = some c :=
              GoMap.lookup_insert_ite.trans ((if_neg hl).trans hf.client)
            have hstay : c.Steps s.loop.ctxDone false c := .stay
            exact ⟨c, hsame, rfl, hf.steps hstay rfl hsame⟩

end Ends

/-- **Providers are delivered in one order**, however late a client joins its query and whatever
the manager and the clients do in between.  `found` is the list of the query, as it is in the
table and as it was when the query ended.  What a client has read is a prefix of it.  A client
that has ended, while neither its session's nor the manager's context is done, has read the whole
list of a query that has ended; and when its query has ended, there is always a step that brings
it nearer to that, and none that takes it away. -/
theorem providers_in_order (acts : List Act) (l : ListenerID) (c : QueryClient)
    (hc : (run step start acts).clients.lookup l = some c) :
    let s := run step start acts
    ((∀ k st, s.loop.pqm.status k = some st → s.found st.ctx = st.providersSoFar) ∧
      (¬ s.loop.pqm.InProgress c.query.ctx →
        ∀ a, (s.step a).found c.query.ctx = s.found c.query.ctx)) ∧
    c.read <+: s.found c.query.ctx ∧
    (c.phase = .ended → c.sessionDone = false → s.loop.ctxDone = false →
      c.read = s.found c.query.ctx ∧ ¬ s.loop.pqm.InProgress c.query.ctx) ∧
    (s.Finishing l c →
      (∃ a ∈ [Act.loop .perform, .client l .outgoing, .client l .incomingClosed,
          .client l .leave], (s.step a).rank l < s.rank l) ∧
        ∀ a, (s.step a).loop.ctxDone = false →
          ∃ c', (s.step a).clients.lookup l = some c' ∧ c'.query = c.query ∧
            (c'.sessionDone = false → (c'.phase = .ended ∨ (s.step a).Finishing l c') ∧
              (s.step a).rank l ≤ s.rank l)) := by
  intro s
  have h : s.Inv := inv_run acts
  have hkeeps : s.Keeps l c := h.clients l c hc
  refine ⟨⟨h.found, fun hgone a => h.found_step a hkeeps.ctx hgone⟩, hkeeps.inOrder,
    fun hp hs hctx => ?_, fun hf => ⟨hf.can h, hf.keeps h⟩⟩
  rcases hkeeps.ended hp with hread | hd | hd
  · exact hread
  · cases hs.symm.trans hd
  · cases hctx.symm.trans hd

/-- Two clients, of which the second joins when a provider has been found; it reads the whole
list. -/
theorem providers_in_order_late :
    let k : Cid := ⟨[1]⟩
    let acts : List Act := [.loop (.newQuery k), .loop .perform, .loop .perform, .loop .perform,
      .loop (.received k ⟨[7]⟩ .stored), .loop .perform, .loop (.newQuery k), .loop .perform,
      .loop .perform, .loop (.received k ⟨[8]⟩ .stored), .loop .perform, .loop .perform,
      .loop (.finished k .stored), .loop .perform, .loop .perform, .loop .perform,
      .client 1 .outgoing, .client 1 .outgoing, .client 1 .incomingClosed, .client 1 .leave]
    ∃ c, (run step start acts).clients.lookup 1 = some c ∧ c.read = [⟨[7]⟩, ⟨[8]⟩] ∧
      c.read = (run step start acts).found c.query.ctx := by
  intro k acts
  have hclient : ((run step start acts).clients.lookup 1).map
      (fun c => (c.phase, c.sessionDone, c.read)) = some (.ended, false, [⟨[7]⟩, ⟨[8]⟩]) := by
    decide
  have hctx : (run step start acts).loop.ctxDone = false := by decide
  clear_value acts
  obtain ⟨c, hc, he⟩ := Option.map_eq_some_iff.mp hclient
  obtain ⟨hp, hs, hread⟩ : c.phase = .ended ∧ c.sessionDone = false ∧ c.read = _ := by
    simpa only [Prod.mk.injEq] using he
  obtain ⟨-, -, hended, -⟩ := providers_in_order acts 1 c hc
  exact ⟨c, hc, hread, (hended hp hs hctx).1⟩

end QueryClients

end BitswapAuth
