/-
# `BitswapAuth.ProviderQueryManager.Loop` — the run loop, effect by effect

A handler changes the table and then works through what it has to do outside of it: it passes a
request on, answers a caller, sends a provider to one listener after the other, closes channels.
Passing on, answering and sending wait for somebody else, so much can happen meanwhile, and when
the manager's context is done such a wait may be given up; the handler then returns at once.  The
loop itself chooses freely between the next message and the end while the context is done.

    todo    what the handler under way has still to do; empty between two messages
    done    what has been done, in this order

The messages are arbitrary here: a provider, an end or a cancel may come for any CID and any
listener at any time, so also after the query has finished or has been started again.

`channels_never_misused`: a channel is closed at most once and nothing is sent on it after that;
while the context is not done, between two messages each query has a listener and its context is
cancelled just when it is not in the table any more.
-/
import BitswapAuth.ProviderQueryManager

namespace BitswapAuth

open Lib

namespace QueryEffect

/-- The effect sends on the channel or closes it. -/
def Uses (l : ListenerID) : QueryEffect → Prop
  | .send l' _ | .close l' => l' = l
  | _ => False

/-- The effect ends something, and does not wait for anybody. -/
def Ends : QueryEffect → Prop
  | .close _ | .cancelFn _ => True
  | _ => False

/-- The later effect does not use a channel that the earlier one has closed. -/
def Respects (a b : QueryEffect) : Prop := ∀ l, a = .close l → ¬ b.Uses l

theorem mem_closes {es : List QueryEffect} {l : ListenerID} : l ∈ closes es ↔ .close l ∈ es := by
  rw [closes, List.mem_filterMap]
  constructor
  · rintro ⟨e, he, h⟩
    cases e with
    | close l' =>
        cases h
        exact he
    | _ => cases h
  · exact fun h => ⟨_, h, rfl⟩

/-- A list that only ends things respects itself if no channel is in it twice. -/
theorem pairwise_respects : ∀ {es : List QueryEffect}, (∀ e ∈ es, e.Ends) → (closes es).Nodup →
    es.Pairwise Respects
  | [], _, _ => .nil
  | e :: es, hends, hnd => by
      have hrest : ∀ e ∈ es, e.Ends := fun e he => hends e (List.mem_cons_of_mem _ he)
      rw [List.pairwise_cons]
      cases e with
      | close l =>
          obtain ⟨hl, hnd⟩ := List.nodup_cons.mp (show (l :: closes es).Nodup from hnd)
          refine ⟨fun b hb l' hl' huse => ?_, pairwise_respects hrest hnd⟩
          cases hl'
          cases b with
          | close l' =>
              cases (show l' = l from huse)
              exact hl (mem_closes.mpr hb)
          | send l' p => exact hrest _ hb
          | _ => exact huse
      | cancelFn c =>
          exact ⟨fun b _ l hl => absurd hl (by simp), pairwise_respects hrest hnd⟩
      | find r => exact absurd (hends _ List.mem_cons_self) id
      | listen l r => exact absurd (hends _ List.mem_cons_self) id
      | answer ps l => exact absurd (hends _ List.mem_cons_self) id
      | send l p => exact absurd (hends _ List.mem_cons_self) id

/-- A list that closes nothing respects itself. -/
theorem pairwise_of_no_close {es : List QueryEffect} (h : ∀ l, .close l ∉ es) :
    es.Pairwise Respects := by
  refine List.pairwise_of_forall_mem_list fun a ha b _ l hl => ?_
  exact absurd (hl ▸ ha) (h l)

/-- What is added respects what was there if it uses no channel that is closed. -/
theorem pairwise_append {es es' : List QueryEffect} (h : es.Pairwise Respects)
    (h' : es'.Pairwise Respects) (hopen : ∀ e ∈ es', ∀ l, e.Uses l → .close l ∉ es) :
    (es ++ es').Pairwise Respects := by
  refine List.pairwise_append.mpr ⟨h, h', fun a ha b hb l hl huse => ?_⟩
  exact hopen b hb l huse (hl ▸ ha)

end QueryEffect

/-! ## What a handler can do -/

namespace ProviderQueryManager

open QueryEffect

/-- What handling a message about a query comes to, when nothing is given up: nothing at all; a
provider is noted and sent to the listeners; a listener leaves and others stay; or the query ends,
with its listeners. -/
inductive Outcome (pqm : ProviderQueryManager) (k : Cid) :
    ProviderQueryManager × List QueryEffect → Prop
  | nothing : Outcome pqm k (pqm, [])
  | sent {st : InProgressRequestStatus} {ls : List ListenerID} (p : PeerID)
      (hst : pqm.status k = some st) (hls : ls.Perm st.listeners.keys) :
      Outcome pqm k (pqm.setStatus k { st with providersSoFar := st.providersSoFar ++ [p] },
        ls.map (.send · p))
  | left {st : InProgressRequestStatus} {l : ListenerID} (hst : pqm.status k = some st)
      (hl : l ∈ st.listeners) (hne : (st.listeners.remove l).len ≠ 0) :
      Outcome pqm k (pqm.setStatus k { st with listeners := st.listeners.remove l }, [.close l])
  | ended {st : InProgressRequestStatus} {ls : List ListenerID} (hst : pqm.status k = some st)
      (hls : ls.Perm st.listeners.keys) :
      Outcome pqm k (pqm.deleteStatus k, ls.map .close ++ [.cancelFn st.ctx])

variable {pqm : ProviderQueryManager} {k : Cid}

theorem outcome_receivedProvider (p : PeerID) (o : RangeOrder) :
    pqm.Outcome k (pqm.receivedProvider k p o none) := by
  rw [receivedProvider]
  split
  · exact .nothing
  · rename_i st hst
    exact .sent p hst (o.range_perm _)

theorem outcome_finishedProviderQuery (o : RangeOrder) :
    pqm.Outcome k (pqm.finishedProviderQuery k o) := by
  rw [finishedProviderQuery]
  split
  · exact .nothing
  · rename_i st hst
    exact .ended hst (o.range_perm _)

/-- The only member of a set is all of it. -/
theorem perm_of_remove_len {s : GoSet ListenerID} {l : ListenerID} (hl : l ∈ s)
    (h : (s.remove l).len = 0) : [l].Perm s.keys := by
  refine (List.perm_ext_iff_of_nodup (List.nodup_singleton l) s.keys_nodup).mpr fun l' => ?_
  rw [List.mem_singleton]
  constructor
  · rintro rfl
    exact AList.mem_keys.mp hl
  · intro hl'
    by_contra hne
    exact GoMap.len_eq_zero.mp h l' (GoSet.mem_remove.mpr ⟨hne, AList.mem_keys.mpr hl'⟩)

theorem outcome_cancelRequest (l : ListenerID) : pqm.Outcome k (pqm.cancelRequest l k) := by
  rw [cancelRequest]
  split
  · exact .nothing
  · rename_i st hst
    split
    · rename_i hl
      dsimp only
      split
      · rename_i hlen
        exact .ended hst (perm_of_remove_len hl hlen)
      · rename_i hlen
        exact .left hst hl hlen
    · exact .nothing

/-- The effects of joining a query, from the request that is passed on if it is a new one. -/
def joins (k : Cid) (st : InProgressRequestStatus) (l : ListenerID) : List QueryEffect :=
  [.find ⟨k, st.ctx⟩, .listen l ⟨k, st.ctx⟩, .answer st.providersSoFar l]

theorem joins_find {k : Cid} {st : InProgressRequestStatus} {l : ListenerID}
    {r : FindProviderRequest} (h : .find r ∈ joins k st l) : r = ⟨k, st.ctx⟩ := by
  simpa [joins] using h

theorem joins_answer {k : Cid} {st : InProgressRequestStatus} {l l' : ListenerID}
    {ps : List PeerID} (h : .answer ps l' ∈ joins k st l) : ps = st.providersSoFar ∧ l' = l := by
  simpa [joins] using h

/-- Handling a new query, when nothing is given up: the new channel is a listener of the query in
progress or of a new one. -/
structure Joined (pqm : ProviderQueryManager) (k : Cid) (st : InProgressRequestStatus)
    (r : ProviderQueryManager × List QueryEffect) : Prop where
  query : pqm.status k = some st ∧ r.1.nextContext = pqm.nextContext ∨
    pqm.status k = none ∧ st = ⟨pqm.nextContext, [], ∅⟩ ∧ r.1.nextContext = pqm.nextContext + 1
  status : ∀ k', r.1.status k' = if k' = k
    then some { st with listeners := st.listeners.add pqm.nextListener } else pqm.status k'
  nextListener : r.1.nextListener = pqm.nextListener + 1
  effects : r.2 <:+ joins k st pqm.nextListener
  isNew : ∀ q, .find q ∈ r.2 → pqm.status k = none

theorem exists_joined (pqm : ProviderQueryManager) (k : Cid) :
    ∃ st, pqm.Joined k st (pqm.newProvideQuery k none) := by
  rw [newProvideQuery]
  cases hst : pqm.status k with
  | some st =>
      refine ⟨st, .inl ⟨hst, rfl⟩, fun k' => status_setStatus, rfl, List.suffix_cons _ _, ?_⟩
      exact fun q hq => absurd hq (by simp [register, sends])
  | none =>
      refine ⟨⟨pqm.nextContext, [], ∅⟩, .inr ⟨hst, rfl, rfl⟩, fun k' => ?_, rfl,
        List.suffix_refl _, fun _ _ => hst⟩
      -- the status is stored twice, without the listener and with it
      refine status_setStatus.trans ?_
      split
      · rfl
      · rename_i hk
        exact status_setStatus.trans (if_neg hk)

/-! ## The table -/

/-- Somebody listens on the channel. -/
def Listed (pqm : ProviderQueryManager) (l : ListenerID) : Prop :=
  ∃ k st, pqm.status k = some st ∧ l ∈ st.listeners

/-- The query with that context is in progress. -/
def InProgress (pqm : ProviderQueryManager) (c : ContextID) : Prop :=
  ∃ k st, pqm.status k = some st ∧ st.ctx = c

/-- Who listens still does if the status that is replaced keeps them. -/
theorem Listed.setStatus {l : ListenerID} (h : pqm.Listed l) {st st' : InProgressRequestStatus}
    (hst : pqm.status k = some st) (hkeep : l ∈ st.listeners → l ∈ st'.listeners) :
    (pqm.setStatus k st').Listed l := by
  obtain ⟨k₁, st₁, hst₁, hl⟩ := h
  by_cases hk : k₁ = k
  · subst hk
    obtain rfl := Option.some.inj (hst₁.symm.trans hst)
    exact ⟨k₁, st', status_setStatus.trans (if_pos rfl), hkeep hl⟩
  · exact ⟨k₁, st₁, status_setStatus.trans ((if_neg hk).trans hst₁), hl⟩

/-- Who listens still does, or was a listener of the query that is gone. -/
theorem Listed.deleteStatus {l : ListenerID} (h : pqm.Listed l) {st : InProgressRequestStatus}
    (hst : pqm.status k = some st) : (pqm.deleteStatus k).Listed l ∨ l ∈ st.listeners := by
  obtain ⟨k₁, st₁, hst₁, hl⟩ := h
  by_cases hk : k₁ = k
  · subst hk
    obtain rfl := Option.some.inj (hst₁.symm.trans hst)
    exact .inr hl
  · exact .inl ⟨k₁, st₁, status_deleteStatus.trans ((if_neg hk).trans hst₁), hl⟩

theorem Shrinks.listed {pqm' : ProviderQueryManager} (h : pqm.Shrinks pqm') {l : ListenerID}
    (hl : pqm'.Listed l) : pqm.Listed l := by
  obtain ⟨k, st', hst', hl⟩ := hl
  obtain ⟨st, hst, -, hsub⟩ := h k st' hst'
  exact ⟨k, st, hst, hsub l hl⟩

theorem Shrinks.inProgress {pqm' : ProviderQueryManager} (h : pqm.Shrinks pqm') {c : ContextID}
    (hc : pqm'.InProgress c) : pqm.InProgress c := by
  obtain ⟨k, st', hst', rfl⟩ := hc
  obtain ⟨st, hst, hctx, -⟩ := h k st' hst'
  exact ⟨k, st, hst, hctx.symm⟩

/-- No listener is in two queries, no context belongs to two, and what is new is not in use. -/
structure Sound (pqm : ProviderQueryManager) : Prop where
  oneQuery : ∀ {k k' st st' l}, pqm.status k = some st → pqm.status k' = some st' →
    l ∈ st.listeners → l ∈ st'.listeners → k = k'
  oneContext : ∀ {k k' st st'}, pqm.status k = some st → pqm.status k' = some st' →
    st.ctx = st'.ctx → k = k'
  listener : ∀ {k st l}, pqm.status k = some st → l ∈ st.listeners → l < pqm.nextListener
  context : ∀ {k st}, pqm.status k = some st → st.ctx < pqm.nextContext

theorem status_new {st : InProgressRequestStatus} : new.status k ≠ some st := by
  intro h
  cases h

theorem sound_new : new.Sound where
  oneQuery h := absurd h status_new
  oneContext h := absurd h status_new
  listener h := absurd h status_new
  context h := absurd h status_new

theorem Sound.shrink (h : pqm.Sound) {pqm' : ProviderQueryManager} (hold : pqm.Shrinks pqm')
    (hnext : pqm'.nextListener = pqm.nextListener) (hctx : pqm'.nextContext = pqm.nextContext) :
    pqm'.Sound where
  oneQuery hst hst' hl hl' := by
    obtain ⟨_, h₁, -, hsub⟩ := hold _ _ hst
    obtain ⟨_, h₂, -, hsub'⟩ := hold _ _ hst'
    exact h.oneQuery h₁ h₂ (hsub _ hl) (hsub' _ hl')
  oneContext hst hst' he := by
    obtain ⟨_, h₁, hc, -⟩ := hold _ _ hst
    obtain ⟨_, h₂, hc', -⟩ := hold _ _ hst'
    exact h.oneContext h₁ h₂ (hc ▸ hc' ▸ he)
  listener hst hl := by
    obtain ⟨_, h₁, -, hsub⟩ := hold _ _ hst
    rw [hnext]
    exact h.listener h₁ (hsub _ hl)
  context hst := by
    obtain ⟨_, h₁, hc, -⟩ := hold _ _ hst
    rw [hctx, hc]
    exact h.context h₁

/-- The effects that end a query. -/
theorem mem_ends {ls : List ListenerID} {c : ContextID} {e : QueryEffect} :
    e ∈ ls.map QueryEffect.close ++ [.cancelFn c] ↔ (∃ l ∈ ls, e = .close l) ∨ e = .cancelFn c := by
  rw [List.mem_append, List.mem_singleton, List.mem_map]
  simp only [eq_comm]

theorem ends_of_mem {ls : List ListenerID} {c : ContextID} {e : QueryEffect}
    (he : e ∈ ls.map QueryEffect.close ++ [.cancelFn c]) : e.Ends := by
  rcases mem_ends.mp he with ⟨l, -, rfl⟩ | rfl <;> trivial

/-- A message about a query begins none, and nobody begins to listen. -/
theorem Outcome.shrinks {r : ProviderQueryManager × List QueryEffect} (ho : pqm.Outcome k r) :
    pqm.Shrinks r.1 := by
  cases ho with
  | nothing => exact pqm.shrinks_self
  | sent p hst hls => exact shrinks_setStatus hst rfl fun _ hl => hl
  | left hst hl hne => exact shrinks_setStatus hst rfl fun _ hl => (GoSet.mem_remove.mp hl).2
  | ended hst hls => exact pqm.shrinks_deleteStatus k

/-- A message about a query passes on no request and answers nobody. -/
theorem Outcome.quiet {r : ProviderQueryManager × List QueryEffect} (ho : pqm.Outcome k r) :
    (∀ q, .find q ∉ r.2) ∧ ∀ ps l, .answer ps l ∉ r.2 := by
  cases ho <;> simp

theorem Outcome.next {r : ProviderQueryManager × List QueryEffect} (ho : pqm.Outcome k r) :
    r.1.nextListener = pqm.nextListener ∧ r.1.nextContext = pqm.nextContext := by
  cases ho <;> exact ⟨rfl, rfl⟩

/-- After joining, a status is that of the query joined or an old one of another CID. -/
theorem Joined.status_cases {st st' : InProgressRequestStatus} {k' : Cid}
    {r : ProviderQueryManager × List QueryEffect} (hj : pqm.Joined k st r)
    (h : r.1.status k' = some st') :
    k' = k ∧ st' = { st with listeners := st.listeners.add pqm.nextListener } ∨
      k' ≠ k ∧ pqm.status k' = some st' := by
  rw [hj.status] at h
  split at h
  · rename_i hk
    exact .inl ⟨hk, (Option.some.inj h).symm⟩
  · rename_i hk
    exact .inr ⟨hk, h⟩

theorem Joined.status_self {st : InProgressRequestStatus}
    {r : ProviderQueryManager × List QueryEffect} (hj : pqm.Joined k st r) :
    r.1.status k = some { st with listeners := st.listeners.add pqm.nextListener } := by
  rw [hj.status, if_pos rfl]

/-- The listeners that the query had before it was joined are in the table. -/
theorem Joined.old {st : InProgressRequestStatus} {r : ProviderQueryManager × List QueryEffect}
    (hj : pqm.Joined k st r) {l : ListenerID} (hl : l ∈ st.listeners) :
    pqm.status k = some st := by
  rcases hj.query with ⟨hst, -⟩ | ⟨-, rfl, -⟩
  · exact hst
  · exact absurd hl (AList.notMem_empty l)

/-- Who listens still does when somebody joins. -/
theorem Joined.listed {st : InProgressRequestStatus} {r : ProviderQueryManager × List QueryEffect}
    (hj : pqm.Joined k st r) {l : ListenerID} (h : pqm.Listed l) : r.1.Listed l := by
  obtain ⟨k₁, st₁, hst₁, hl⟩ := h
  by_cases hk : k₁ = k
  · subst hk
    rcases hj.query with ⟨hst, -⟩ | ⟨hnone, -⟩
    · obtain rfl := Option.some.inj (hst₁.symm.trans hst)
      exact ⟨k₁, _, hj.status_self, GoSet.mem_add.mpr (.inr hl)⟩
    · cases hnone.symm.trans hst₁
  · exact ⟨k₁, st₁, (hj.status k₁).trans ((if_neg hk).trans hst₁), hl⟩

theorem Joined.nextContext_le {st : InProgressRequestStatus}
    {r : ProviderQueryManager × List QueryEffect} (hj : pqm.Joined k st r) :
    pqm.nextContext ≤ r.1.nextContext := by
  rcases hj.query with ⟨-, h⟩ | ⟨-, -, h⟩
  · exact le_of_eq h.symm
  · rw [h]
    exact Nat.le_succ _

/-- The context of the query that is joined belongs to no other. -/
theorem Joined.other_context {st st' : InProgressRequestStatus}
    {r : ProviderQueryManager × List QueryEffect} (hj : pqm.Joined k st r) (h : pqm.Sound)
    {k' : Cid} (hst' : pqm.status k' = some st') (hk : k' ≠ k) : st'.ctx ≠ st.ctx := by
  intro he
  rcases hj.query with ⟨hst, -⟩ | ⟨-, rfl, -⟩
  · exact hk (h.oneContext hst' hst he)
  · exact absurd (h.context hst') (by rw [he]; exact Nat.lt_irrefl _)

theorem Joined.other_listener {st st' : InProgressRequestStatus}
    {r : ProviderQueryManager × List QueryEffect} (hj : pqm.Joined k st r) (h : pqm.Sound)
    {k' : Cid} (hst' : pqm.status k' = some st') (hk : k' ≠ k) {l : ListenerID}
    (hl' : l ∈ st'.listeners) : l ∉ st.listeners.add pqm.nextListener := by
  intro hl
  rcases GoSet.mem_add.mp hl with rfl | hl
  · exact absurd (h.listener hst' hl') (Nat.lt_irrefl _)
  · exact hk (h.oneQuery hst' (hj.old hl) hl' hl)

theorem Sound.joined (h : pqm.Sound) {st : InProgressRequestStatus}
    {r : ProviderQueryManager × List QueryEffect} (hj : pqm.Joined k st r) : r.1.Sound where
  oneQuery hst hst' hl hl' := by
    rcases hj.status_cases hst with ⟨hk, rfl⟩ | ⟨hk, hst⟩ <;>
      rcases hj.status_cases hst' with ⟨hk', rfl⟩ | ⟨hk', hst'⟩
    · exact hk.trans hk'.symm
    · exact absurd hl (hj.other_listener h hst' hk' hl')
    · exact absurd hl' (hj.other_listener h hst hk hl)
    · exact h.oneQuery hst hst' hl hl'
  oneContext hst hst' he := by
    rcases hj.status_cases hst with ⟨hk, rfl⟩ | ⟨hk, hst⟩ <;>
      rcases hj.status_cases hst' with ⟨hk', rfl⟩ | ⟨hk', hst'⟩
    · exact hk.trans hk'.symm
    · exact absurd he.symm (hj.other_context h hst' hk')
    · exact absurd he (hj.other_context h hst hk)
    · exact h.oneContext hst hst' he
  listener hst hl := by
    rw [hj.nextListener]
    rcases hj.status_cases hst with ⟨-, rfl⟩ | ⟨-, hst⟩
    · rcases GoSet.mem_add.mp hl with rfl | hl
      · exact Nat.lt_succ_self _
      · exact Nat.lt_succ_of_lt (h.listener (hj.old hl) hl)
    · exact Nat.lt_succ_of_lt (h.listener hst hl)
  context hst := by
    rcases hj.status_cases hst with ⟨-, rfl⟩ | ⟨-, hst⟩
    · rcases hj.query with ⟨hold, hn⟩ | ⟨-, rfl, hn⟩
      · show st.ctx < _
        rw [hn]
        exact h.context hold
      · rw [hn]
        exact Nat.lt_succ_self _
    · exact Nat.lt_of_lt_of_le (h.context hst) hj.nextContext_le

/-! ## What the loop needs to know of a handler -/

/-- Every query in progress has a listener. -/
def Listened (pqm : ProviderQueryManager) : Prop :=
  ∀ k st, pqm.status k = some st → st.listeners.len ≠ 0

/-- The effects of one handler, from some point on: somebody joins a query, a provider is sent
around, or things are ended. -/
inductive Doing (pqm : ProviderQueryManager) : List QueryEffect → Prop
  | joining {k : Cid} {st : InProgressRequestStatus} {l : ListenerID} {es : List QueryEffect}
      (hst : pqm.status k = some st) (hes : es <:+ joins k st l) : Doing pqm es
  | sending (ls : List ListenerID) (p : PeerID) : Doing pqm (ls.map (.send · p))
  | ending {es : List QueryEffect} (hes : ∀ e ∈ es, e.Ends) : Doing pqm es

theorem Doing.nil : pqm.Doing [] :=
  .ending fun _ he => absurd he List.not_mem_nil

theorem Doing.tail {e : QueryEffect} {es : List QueryEffect} (h : pqm.Doing (e :: es)) :
    pqm.Doing es := by
  generalize hall : e :: es = all at h
  cases h with
  | joining hst hes =>
      subst hall
      exact .joining hst ((List.suffix_cons e es).trans hes)
  | sending ls p =>
      cases ls with
      | nil => cases hall
      | cons l ls =>
          cases hall
          exact .sending ls p
  | ending hes =>
      subst hall
      exact .ending fun e he => hes e (List.mem_cons_of_mem _ he)

/-- A handler ends things or does something else, not both. -/
theorem Doing.ends_or {es : List QueryEffect} (h : pqm.Doing es) :
    (∀ e ∈ es, e.Ends) ∨ ∀ e ∈ es, ¬ e.Ends := by
  cases h with
  | joining hst hes =>
      refine .inr fun e he => ?_
      have hmem := hes.subset he
      simp only [joins, List.mem_cons, List.not_mem_nil, or_false] at hmem
      rcases hmem with rfl | rfl | rfl <;> exact id
  | sending ls p =>
      refine .inr fun e he => ?_
      obtain ⟨l, -, rfl⟩ := List.mem_map.mp he
      exact id
  | ending hes => exact .inl hes

/-- What neither ends anything nor sends is done for somebody who joins. -/
theorem Doing.joins {e : QueryEffect} {es : List QueryEffect} (h : pqm.Doing (e :: es))
    (hends : ¬ e.Ends) (hsend : ∀ l p, e ≠ .send l p) :
    ∃ k st l, pqm.status k = some st ∧ e :: es <:+ joins k st l := by
  generalize hall : e :: es = all at h
  cases h with
  | joining hst hes => exact ⟨_, _, _, hst, hes⟩
  | sending ls p =>
      cases ls with
      | nil => cases hall
      | cons l ls =>
          cases hall
          exact absurd rfl (hsend l p)
  | ending hes => exact absurd (hes e (hall ▸ List.mem_cons_self)) hends

/-- A request that is to be passed on is that of a query in progress. -/
theorem Doing.find {r : FindProviderRequest} {es : List QueryEffect}
    (h : pqm.Doing (.find r :: es)) : ∃ st, pqm.status r.k = some st ∧ st.ctx = r.ctx := by
  obtain ⟨k, st, l, hst, hes⟩ := h.joins id fun _ _ he => by cases he
  obtain rfl := joins_find (hes.subset List.mem_cons_self)
  exact ⟨st, hst, rfl⟩

/-- The answer is the last thing that the handler of a new query does. -/
theorem Doing.answer {ps : List PeerID} {l : ListenerID} {es : List QueryEffect}
    (h : pqm.Doing (.answer ps l :: es)) : es = [] := by
  obtain ⟨k, st, l', -, hes⟩ := h.joins id fun _ _ he => by cases he
  simp only [ProviderQueryManager.joins, List.suffix_cons_iff, List.suffix_nil, List.cons.injEq,
    reduceCtorEq, false_and, false_or, or_false] at hes
  exact hes.2

/-- A handler uses only channels that somebody listens on, and closes those that it takes from
the table; it cancels the contexts of the queries that it takes from the table, and leaves no
query without a listener. -/
structure Proper (pqm : ProviderQueryManager) (r : ProviderQueryManager × List QueryEffect) :
    Prop where
  sound : r.1.Sound
  doing : r.1.Doing r.2
  respects : r.2.Pairwise Respects
  next : pqm.nextListener ≤ r.1.nextListener
  uses : ∀ e ∈ r.2, ∀ l, e.Uses l → pqm.Listed l
  isOpen : ∀ l, r.1.Listed l → .close l ∉ r.2 ∧ (pqm.Listed l ∨ l = pqm.nextListener)
  cancels : ∀ c, c < r.1.nextContext ∧ ¬ r.1.InProgress c ↔
    .cancelFn c ∈ r.2 ∨ c < pqm.nextContext ∧ ¬ pqm.InProgress c
  listened : pqm.Listened → r.1.Listened

theorem inProgress_setStatus {st st' : InProgressRequestStatus} (hst : pqm.status k = some st)
    (hctx : st'.ctx = st.ctx) (c : ContextID) :
    (pqm.setStatus k st').InProgress c ↔ pqm.InProgress c := by
  constructor
  · rintro ⟨k', st₁, h, hc⟩
    rcases status_setStatus_cases h with ⟨-, rfl⟩ | ⟨-, h⟩
    · exact ⟨k, st, hst, hctx ▸ hc⟩
    · exact ⟨k', st₁, h, hc⟩
  · rintro ⟨k', st₁, h, hc⟩
    by_cases hk : k' = k
    · subst hk
      obtain rfl := Option.some.inj (hst.symm.trans h)
      exact ⟨k', st', status_setStatus.trans (if_pos rfl), hctx.trans hc⟩
    · exact ⟨k', st₁, status_setStatus.trans ((if_neg hk).trans h), hc⟩

theorem inProgress_deleteStatus (h : pqm.Sound) {st : InProgressRequestStatus}
    (hst : pqm.status k = some st) (c : ContextID) :
    (pqm.deleteStatus k).InProgress c ↔ pqm.InProgress c ∧ c ≠ st.ctx := by
  constructor
  · rintro ⟨k', st₁, hst₁, rfl⟩
    obtain ⟨hk, hst₁⟩ := status_deleteStatus_some hst₁
    exact ⟨⟨k', st₁, hst₁, rfl⟩, fun he => hk (h.oneContext hst₁ hst he)⟩
  · rintro ⟨⟨k', st₁, hst₁, rfl⟩, hne⟩
    refine ⟨k', st₁, status_deleteStatus.trans ((if_neg ?_).trans hst₁), rfl⟩
    rintro rfl
    exact hne (congrArg InProgressRequestStatus.ctx (Option.some.inj (hst₁.symm.trans hst)))

theorem proper_nothing (h : pqm.Sound) : pqm.Proper (pqm, []) where
  sound := h
  doing := .nil
  respects := .nil
  next := le_refl _
  uses e he := absurd he List.not_mem_nil
  isOpen l hl := ⟨List.not_mem_nil, .inl hl⟩
  cancels c := by simp
  listened h := h

/-- A status is replaced by one of the same context with no other listeners: the effects have to
leave the contexts alone, and to close no channel that is still listened on. -/
theorem proper_setStatus (h : pqm.Sound) {st st' : InProgressRequestStatus}
    {es : List QueryEffect} (hst : pqm.status k = some st) (hctx : st'.ctx = st.ctx)
    (hsub : ∀ l ∈ st'.listeners, l ∈ st.listeners)
    (hlen : st.listeners.len ≠ 0 → st'.listeners.len ≠ 0) (hdoing : (pqm.setStatus k st').Doing es)
    (hrespects : es.Pairwise Respects) (huses : ∀ e ∈ es, ∀ l, e.Uses l → l ∈ st.listeners)
    (hopen : ∀ l, (pqm.setStatus k st').Listed l → .close l ∉ es) (hno : ∀ c, .cancelFn c ∉ es) :
    pqm.Proper (pqm.setStatus k st', es) where
  sound := h.shrink (shrinks_setStatus hst hctx hsub) rfl rfl
  doing := hdoing
  respects := hrespects
  next := le_refl _
  uses e he l hl := ⟨k, st, hst, huses e he l hl⟩
  isOpen l hl := ⟨hopen l hl, .inl ((shrinks_setStatus hst hctx hsub).listed hl)⟩
  cancels c := by
    have hsame := inProgress_setStatus hst hctx c
    exact (and_congr_right' (not_congr hsame)).trans (or_iff_right (hno c)).symm
  listened hlis k' st₁ hst₁ := by
    rcases status_setStatus_cases hst₁ with ⟨-, rfl⟩ | ⟨-, hst₁⟩
    · exact hlen (hlis k st hst)
    · exact hlis k' st₁ hst₁

theorem proper_sent (h : pqm.Sound) {st : InProgressRequestStatus} {ls : List ListenerID}
    (p : PeerID) (hst : pqm.status k = some st) (hls : ls.Perm st.listeners.keys) :
    pqm.Proper (pqm.setStatus k { st with providersSoFar := st.providersSoFar ++ [p] },
      ls.map (.send · p)) := by
  have hclose : ∀ l, .close l ∉ ls.map (QueryEffect.send · p) := by simp
  refine proper_setStatus h hst rfl (fun _ hl => hl) id (.sending ls p)
    (pairwise_of_no_close hclose) (fun e he l hl => ?_) (fun l _ => hclose l) (by simp)
  obtain ⟨l', hl', rfl⟩ := List.mem_map.mp he
  obtain rfl : l' = l := hl
  exact AList.mem_keys.mpr (hls.mem_iff.mp hl')

theorem proper_left (h : pqm.Sound) {st : InProgressRequestStatus} {l : ListenerID}
    (hst : pqm.status k = some st) (hl : l ∈ st.listeners)
    (hne : (st.listeners.remove l).len ≠ 0) :
    pqm.Proper (pqm.setStatus k { st with listeners := st.listeners.remove l }, [.close l]) := by
  refine proper_setStatus h hst rfl (fun l' hl' => (GoSet.mem_remove.mp hl').2) (fun _ => hne)
    (.ending fun e he => ?_) (List.pairwise_singleton _ _) (fun e he l' hl' => ?_) ?_ (by simp)
  · rw [List.mem_singleton.mp he]
    trivial
  · rw [List.mem_singleton.mp he] at hl'
    obtain rfl : l = l' := hl'
    exact hl
  · rintro l' ⟨k', st', hst', hl'⟩ hc
    cases List.mem_singleton.mp hc
    rcases status_setStatus_cases hst' with ⟨-, rfl⟩ | ⟨hk, hst'⟩
    · exact (GoSet.mem_remove.mp hl').1 rfl
    · exact hk (h.oneQuery hst' hst hl' hl)

theorem ends_cleanupInProcessRequests (pqm : ProviderQueryManager) (o : RangeOrder)
    (ol : Cid → RangeOrder) : ∀ e ∈ pqm.cleanupInProcessRequests o ol, e.Ends := by
  intro e he
  obtain ⟨entry, -, he⟩ := List.mem_flatMap.mp he
  exact ends_of_mem he

theorem proper_ended (h : pqm.Sound) {st : InProgressRequestStatus} {ls : List ListenerID}
    (hst : pqm.status k = some st) (hls : ls.Perm st.listeners.keys) :
    pqm.Proper (pqm.deleteStatus k, ls.map .close ++ [.cancelFn st.ctx]) := by
  have hends : ∀ e ∈ ls.map QueryEffect.close ++ [.cancelFn st.ctx], e.Ends := fun e =>
    ends_of_mem
  have hmem : ∀ l ∈ ls, l ∈ st.listeners := fun l hl => AList.mem_keys.mpr (hls.mem_iff.mp hl)
  have hsound : (pqm.deleteStatus k).Sound := h.shrink (pqm.shrinks_deleteStatus k) rfl rfl
  refine ⟨hsound, .ending hends, pairwise_respects hends ?_, le_refl _, ?_, ?_, ?_, ?_⟩
  · rw [closes_append, closes_map_close]
    show (ls ++ []).Nodup
    rw [List.append_nil, hls.nodup_iff]
    exact st.listeners.keys_nodup
  · intro e he l hl
    rcases mem_ends.mp he with ⟨l', hl', rfl⟩ | rfl
    · obtain rfl : l' = l := hl
      exact ⟨k, st, hst, hmem l' hl'⟩
    · exact absurd hl id
  · rintro l ⟨k', st', hst', hl⟩
    obtain ⟨hk, hst'⟩ := status_deleteStatus_some hst'
    refine ⟨fun hc => hk ?_, .inl ⟨k', st', hst', hl⟩⟩
    rcases mem_ends.mp hc with ⟨l', hl', he⟩ | he
    · cases he
      exact h.oneQuery hst' hst hl (hmem l hl')
    · cases he
  · intro c
    have hc : .cancelFn c ∈ ls.map QueryEffect.close ++ [.cancelFn st.ctx] ↔ c = st.ctx := by
      rw [mem_ends]
      simp
    rw [hc, inProgress_deleteStatus h hst]
    constructor
    · rintro ⟨hlt, hno⟩
      by_cases he : c = st.ctx
      · exact .inl he
      · exact .inr ⟨hlt, fun hp => hno ⟨hp, he⟩⟩
    · rintro (rfl | ⟨hlt, hno⟩)
      · exact ⟨h.context hst, fun hp => hp.2 rfl⟩
      · exact ⟨hlt, fun hp => hno hp.1⟩
  · exact fun hlis k' st' hst' => hlis k' st' (status_deleteStatus_some hst').2

theorem Outcome.proper {r : ProviderQueryManager × List QueryEffect} (ho : pqm.Outcome k r)
    (h : pqm.Sound) : pqm.Proper r := by
  cases ho with
  | nothing => exact proper_nothing h
  | sent p hst hls => exact proper_sent h p hst hls
  | left hst hl hne => exact proper_left h hst hl hne
  | ended hst hls => exact proper_ended h hst hls

theorem Joined.mem_effects {st : InProgressRequestStatus}
    {r : ProviderQueryManager × List QueryEffect} (hj : pqm.Joined k st r) {e : QueryEffect}
    (he : e ∈ r.2) : ¬ e.Ends ∧ ∀ l, ¬ e.Uses l := by
  have hmem := hj.effects.subset he
  simp only [joins, List.mem_cons, List.not_mem_nil, or_false] at hmem
  rcases hmem with rfl | rfl | rfl <;> exact ⟨id, fun _ => id⟩

/-- The queries in progress are the one that was joined and those from before. -/
theorem Joined.inProgress {st : InProgressRequestStatus}
    {r : ProviderQueryManager × List QueryEffect} (hj : pqm.Joined k st r) (c : ContextID) :
    r.1.InProgress c ↔ c = st.ctx ∨ pqm.InProgress c := by
  constructor
  · rintro ⟨k', st', hst', rfl⟩
    rcases hj.status_cases hst' with ⟨-, rfl⟩ | ⟨-, hst'⟩
    · exact .inl rfl
    · exact .inr ⟨k', st', hst', rfl⟩
  · rintro (rfl | ⟨k', st', hst', rfl⟩)
    · exact ⟨k, _, hj.status_self, rfl⟩
    · by_cases hk : k' = k
      · subst hk
        rcases hj.query with ⟨hst, -⟩ | ⟨hnone, -⟩
        · obtain rfl := Option.some.inj (hst.symm.trans hst')
          exact ⟨k', _, hj.status_self, rfl⟩
        · cases hnone.symm.trans hst'
      · exact ⟨k', st', (hj.status k').trans ((if_neg hk).trans hst'), rfl⟩

/-- A query that has ended does not come back. -/
theorem Joined.gone {st : InProgressRequestStatus} {r : ProviderQueryManager × List QueryEffect}
    (hj : pqm.Joined k st r) {c : ContextID} (hc : c < pqm.nextContext)
    (hgone : ¬ pqm.InProgress c) : ¬ r.1.InProgress c := by
  rw [hj.inProgress, not_or]
  refine ⟨fun he => ?_, hgone⟩
  rcases hj.query with ⟨hst, -⟩ | ⟨-, rfl, -⟩
  · exact hgone ⟨k, st, hst, he.symm⟩
  · exact absurd hc (by rw [he]; exact Nat.lt_irrefl _)

theorem Joined.proper {st : InProgressRequestStatus}
    {r : ProviderQueryManager × List QueryEffect} (hj : pqm.Joined k st r) (h : pqm.Sound) :
    pqm.Proper r where
  sound := h.joined hj
  doing := .joining hj.status_self hj.effects
  respects := pairwise_of_no_close fun l hl => (hj.mem_effects hl).1 trivial
  next := by
    rw [hj.nextListener]
    exact Nat.le_succ _
  uses e he l hl := absurd hl ((hj.mem_effects he).2 l)
  isOpen l := by
    rintro ⟨k', st', hst', hl⟩
    refine ⟨fun hc => (hj.mem_effects hc).1 trivial, ?_⟩
    rcases hj.status_cases hst' with ⟨-, rfl⟩ | ⟨-, hst'⟩
    · exact (GoSet.mem_add.mp hl).symm.imp_left fun hl => ⟨k, st, hj.old hl, hl⟩
    · exact .inl ⟨k', st', hst', hl⟩
  cancels c := by
    have hno : .cancelFn c ∉ r.2 := fun hc => (hj.mem_effects hc).1 trivial
    rw [or_iff_right hno, hj.inProgress]
    rcases hj.query with ⟨hst, hn⟩ | ⟨-, rfl, hn⟩
    · rw [hn]
      refine and_congr_right' (not_congr ⟨fun hc => hc.elim (fun hc => ⟨k, st, hst, hc.symm⟩) id,
        .inr⟩)
    · rw [hn, not_or]
      constructor
      · rintro ⟨hlt, hne, hno⟩
        exact ⟨lt_of_le_of_ne (Nat.le_of_lt_succ hlt) hne, hno⟩
      · rintro ⟨hlt, hno⟩
        exact ⟨Nat.lt_succ_of_lt hlt, Nat.ne_of_lt hlt, hno⟩
  listened hlis k' st' hst' := by
    rcases hj.status_cases hst' with ⟨-, rfl⟩ | ⟨-, hst'⟩
    · exact GoMap.len_ne_zero.mpr ⟨pqm.nextListener, GoSet.mem_add.mpr (.inl rfl)⟩
    · exact hlis k' st' hst'

end ProviderQueryManager

/-! ## The loop -/

/-- The manager in its loop: whether its context is done and whether the loop has ended, what the
handler under way has still to do, and what has been done. -/
structure QueryLoop where
  pqm : ProviderQueryManager
  ctxDone : Bool
  stopped : Bool
  todo : List QueryEffect
  done : List QueryEffect

namespace QueryLoop

open QueryEffect ProviderQueryManager

/-- A message is taken from the channel; the handler under way does the next thing, or finds the
context done while it waits for somebody; the context is done; the loop ends. -/
inductive Act where
  | newQuery (k : Cid)
  | received (k : Cid) (p : PeerID) (o : RangeOrder)
  | finished (k : Cid) (o : RangeOrder)
  | cancel (l : ListenerID) (k : Cid)
  | perform
  | giveUp
  | cancelContext
  | shutdown (o : RangeOrder) (ol : Cid → RangeOrder)

def start : QueryLoop := ⟨.new, false, false, [], []⟩

/-- The loop waits for a message. -/
def Idle (s : QueryLoop) : Prop := s.stopped = false ∧ s.todo = []

instance (s : QueryLoop) : Decidable s.Idle := inferInstanceAs (Decidable (_ ∧ s.todo = []))

/-- A handler has changed the table and starts with its effects. -/
def handled (s : QueryLoop) (r : ProviderQueryManager × List QueryEffect) : QueryLoop :=
  if s.Idle then { s with pqm := r.1, todo := r.2 } else s

/-- The handler under way does the next thing. -/
def perform (s : QueryLoop) : QueryLoop :=
  match s.todo with
  | [] => s
  | e :: es => { s with todo := es, done := s.done ++ [e] }

/-- The handler under way returns, since it was to wait and the context is done. -/
def giveUp (s : QueryLoop) : QueryLoop :=
  match s.todo with
  -- the status is in the table, but the channel has not been made
  | .find r :: _ => { s with pqm := s.pqm.setStatus r.k ⟨r.ctx, [], ∅⟩, todo := [] }
  | .answer _ _ :: _ | .send _ _ :: _ => { s with todo := [] }
  | _ => s

def step (s : QueryLoop) : Act → QueryLoop
  | .newQuery k => s.handled (s.pqm.newProvideQuery k none)
  | .received k p o => s.handled (s.pqm.receivedProvider k p o none)
  | .finished k o => s.handled (s.pqm.finishedProviderQuery k o)
  | .cancel l k => s.handled (s.pqm.cancelRequest l k)
  | .perform => s.perform
  | .giveUp => if s.ctxDone then s.giveUp else s
  | .cancelContext => { s with ctxDone := true }
  | .shutdown o ol =>
      if s.ctxDone ∧ s.Idle then
        { s with stopped := true, todo := s.pqm.cleanupInProcessRequests o ol }
      else s

/-- The context of a query is cancelled: its own cancel function was called, or the manager's
context, which it is derived from, is done. -/
def Cancelled (s : QueryLoop) (c : ContextID) : Prop := s.ctxDone = true ∨ .cancelFn c ∈ s.done

/-! ## What holds throughout -/

/-- What the handler under way has still to do counts as done here: nothing else can happen
before it, except that it is given up. -/
def log (s : QueryLoop) : List QueryEffect := s.done ++ s.todo

structure Inv (s : QueryLoop) : Prop where
  sound : s.pqm.Sound
  doing : s.pqm.Doing s.todo
  respects : s.log.Pairwise Respects
  below : ∀ l, .close l ∈ s.log → l < s.pqm.nextListener
  isOpen : s.stopped = false → ∀ l, s.pqm.Listed l → .close l ∉ s.log
  cancelled : s.stopped = false →
    ∀ c, .cancelFn c ∈ s.log ↔ c < s.pqm.nextContext ∧ ¬ s.pqm.InProgress c
  listened : s.ctxDone = false → s.pqm.Listened
  stopped : s.stopped = true → s.ctxDone = true

theorem inv_start : start.Inv where
  sound := sound_new
  doing := .nil
  respects := .nil
  below _ h := absurd h List.not_mem_nil
  isOpen _ _ _ := List.not_mem_nil
  cancelled _ c := by
    refine ⟨fun h => absurd h List.not_mem_nil, fun h => absurd h.1 (Nat.not_lt_zero c)⟩
  listened _ _ _ h := absurd h status_new
  stopped h := by cases h

section Steps

variable {s : QueryLoop}

theorem log_of_idle (h : s.Idle) : s.log = s.done := by
  rw [log, h.2, List.append_nil]

theorem Inv.handled (h : s.Inv) (hidle : s.Idle) {r : ProviderQueryManager × List QueryEffect}
    (hr : s.pqm.Proper r) : ({ s with pqm := r.1, todo := r.2 } : QueryLoop).Inv := by
  have hlog := log_of_idle hidle
  have hopen := h.isOpen hidle.1
  rw [hlog] at hopen
  refine ⟨hr.sound, hr.doing, ?_, fun l hl => ?_, fun _ l hl hc => ?_, fun _ c => ?_,
    fun hctx => hr.listened (h.listened hctx), h.stopped⟩
  · exact pairwise_append (hlog ▸ h.respects) hr.respects fun e he l hl =>
      hopen l (hr.uses e he l hl)
  · rcases List.mem_append.mp hl with hl | hl
    · exact Nat.lt_of_lt_of_le (h.below l (hlog ▸ hl)) hr.next
    · obtain ⟨k, st, hst, hlis⟩ := hr.uses _ hl l rfl
      exact Nat.lt_of_lt_of_le (h.sound.listener hst hlis) hr.next
  · obtain ⟨hnew, hold⟩ := hr.isOpen l hl
    rcases List.mem_append.mp hc with hc | hc
    · rcases hold with hold | rfl
      · exact hopen l hold hc
      · exact Nat.lt_irrefl _ (h.below _ (hlog ▸ hc))
    · exact hnew hc
  · have hcancelled := h.cancelled hidle.1 c
    rw [hlog] at hcancelled
    show _ ↔ c < r.1.nextContext ∧ ¬ r.1.InProgress c
    rw [hr.cancels, ← hcancelled, or_comm]
    exact List.mem_append

/-- A message is handled, or the loop is not ready for one. -/
theorem inv_handled (h : s.Inv) {r : ProviderQueryManager × List QueryEffect}
    (hr : s.pqm.Proper r) : (s.handled r).Inv := by
  rw [QueryLoop.handled]
  split
  · rename_i hidle
    exact h.handled hidle hr
  · exact h

theorem perform_of_cons {e : QueryEffect} {es : List QueryEffect} (h : s.todo = e :: es) :
    s.perform = { s with todo := es, done := s.done ++ [e] } := by
  rw [perform, h]

theorem perform_of_nil (h : s.todo = []) : s.perform = s := by
  rw [perform, h]

theorem pqm_perform (s : QueryLoop) : s.perform.pqm = s.pqm := by
  rw [perform]
  split <;> rfl

theorem log_perform (s : QueryLoop) : s.perform.log = s.log := by
  cases htodo : s.todo with
  | nil => rw [perform_of_nil htodo]
  | cons e es =>
      rw [perform_of_cons htodo, log, log, htodo]
      exact List.append_assoc _ _ _

theorem inv_perform (h : s.Inv) : s.perform.Inv := by
  cases htodo : s.todo with
  | nil =>
      rw [perform_of_nil htodo]
      exact h
  | cons e es =>
      have hlog := s.log_perform
      rw [perform_of_cons htodo] at hlog ⊢
      have hdoing : s.pqm.Doing es := (htodo ▸ h.doing).tail
      refine ⟨h.sound, hdoing, ?_, ?_, ?_, ?_, h.listened, h.stopped⟩
      · rw [hlog]
        exact h.respects
      · rw [hlog]
        exact h.below
      · rw [hlog]
        exact h.isOpen
      · rw [hlog]
        exact h.cancelled

/-- While the handler waits, what ends something has been done. -/
theorem Inv.mem_done_iff (h : s.Inv) {e : QueryEffect} {es : List QueryEffect}
    (htodo : s.todo = e :: es) (he : ¬ e.Ends) {e' : QueryEffect} (he' : e'.Ends) :
    e' ∈ s.done ↔ e' ∈ s.log := by
  rw [log, List.mem_append, or_iff_left]
  intro hmem
  rcases h.doing.ends_or with hall | hnone
  · exact he (hall e (htodo ▸ List.mem_cons_self))
  · exact hnone e' hmem he'

/-- The handler gives up: it drops what it still had to do, which ends nothing.  If it was to pass
a request on, the query stays in the table without its listener. -/
theorem Inv.giveUp_cases (h : s.Inv) : s.giveUp = s ∨ ∃ e es pqm, s.todo = e :: es ∧ ¬ e.Ends ∧
    s.giveUp = { s with pqm := pqm, todo := [] } ∧
    (pqm = s.pqm ∨ ∃ r st, e = .find r ∧ s.pqm.status r.k = some st ∧ r.ctx = st.ctx ∧
      pqm = s.pqm.setStatus r.k ⟨r.ctx, [], ∅⟩) := by
  rw [giveUp]
  split
  · rename_i r es htodo
    have hdoing := h.doing
    rw [htodo] at hdoing
    obtain ⟨st, hst, hc⟩ := hdoing.find
    exact .inr ⟨_, es, _, htodo, id, rfl, .inr ⟨r, st, rfl, hst, hc.symm, rfl⟩⟩
  · rename_i ps l es htodo
    exact .inr ⟨_, es, s.pqm, htodo, id, rfl, .inl rfl⟩
  · rename_i l p es htodo
    exact .inr ⟨_, es, s.pqm, htodo, id, rfl, .inl rfl⟩
  · exact .inl rfl

/-- What a handler that gives up leaves of the table. -/
theorem drops_find {pqm pqm' : ProviderQueryManager} (h : pqm.Sound) {e : QueryEffect}
    (hpqm : pqm' = pqm ∨ ∃ r st, e = .find r ∧ pqm.status r.k = some st ∧ r.ctx = st.ctx ∧
      pqm' = pqm.setStatus r.k ⟨r.ctx, [], ∅⟩) :
    pqm'.Sound ∧ pqm'.nextListener = pqm.nextListener ∧ pqm'.nextContext = pqm.nextContext ∧
      (∀ l, pqm'.Listed l → pqm.Listed l) ∧ ∀ c, pqm'.InProgress c ↔ pqm.InProgress c := by
  rcases hpqm with rfl | ⟨r, st, -, hst, hc, rfl⟩
  · exact ⟨h, rfl, rfl, fun _ hl => hl, fun _ => Iff.rfl⟩
  · have hshrinks : pqm.Shrinks (pqm.setStatus r.k ⟨r.ctx, [], ∅⟩) :=
      shrinks_setStatus hst hc fun l hl => absurd hl (AList.notMem_empty l)
    exact ⟨h.shrink hshrinks rfl rfl, rfl, rfl, fun _ => hshrinks.listed,
      inProgress_setStatus hst hc⟩

theorem inv_giveUp (h : s.Inv) (hctx : s.ctxDone = true) : s.giveUp.Inv := by
  rcases h.giveUp_cases with hsame | ⟨e, es, pqm, htodo, he, hdrop, hpqm⟩
  · rw [hsame]
    exact h
  · obtain ⟨hsound, hnext, hnextc, hlisted, hprogress⟩ := drops_find h.sound hpqm
    have hends : ∀ e' : QueryEffect, e'.Ends → (e' ∈ s.done ++ [] ↔ e' ∈ s.log) := by
      intro e' he'
      rw [List.append_nil]
      exact h.mem_done_iff htodo he he'
    rw [hdrop]
    refine ⟨hsound, .nil, ?_, fun l hl => ?_, fun hs l hl hc => ?_, fun hs c => ?_, fun hno => ?_,
      h.stopped⟩
    · exact h.respects.sublist (List.Sublist.append_left (List.nil_sublist _) _)
    · rw [hnext]
      exact h.below l ((hends (.close l) trivial).mp hl)
    · exact h.isOpen hs l (hlisted l hl) ((hends (.close l) trivial).mp hc)
    · refine (hends (.cancelFn c) trivial).trans ((h.cancelled hs c).trans ?_)
      rw [← hprogress c, ← hnextc]
    · cases hctx.symm.trans hno

theorem inv_shutdown (h : s.Inv) (hctx : s.ctxDone = true) (hidle : s.Idle) (o : RangeOrder)
    (ol : Cid → RangeOrder) :
    ({ s with stopped := true, todo := s.pqm.cleanupInProcessRequests o ol } : QueryLoop).Inv := by
  have hlog := log_of_idle hidle
  have hends := s.pqm.ends_cleanupInProcessRequests o ol
  have hlisted : ∀ l, .close l ∈ s.pqm.cleanupInProcessRequests o ol → s.pqm.Listed l := by
    intro l hl
    rw [← mem_closes, closes_cleanupInProcessRequests] at hl
    obtain ⟨e, he, hl⟩ := List.mem_flatMap.mp hl
    exact ⟨e.1, e.2, GoMap.mem_pairs.mp (RangeOrder.mem_range.mp he),
      AList.mem_keys.mpr (RangeOrder.mem_range.mp hl)⟩
  refine ⟨h.sound, .ending hends, ?_, fun l hl => ?_, fun hs => ?_, fun hs => ?_, h.listened,
    fun _ => hctx⟩
  · refine pairwise_append (hlog ▸ h.respects) (pairwise_respects hends ?_) fun e he l hl => ?_
    · exact nodup_closes_cleanup (fun _ _ _ _ _ => h.sound.oneQuery) o ol
    · cases e with
      | close l' =>
          obtain rfl : l' = l := hl
          exact hlog ▸ h.isOpen hidle.1 l' (hlisted l' he)
      | send l' p => exact absurd (hends _ he) id
      | _ => exact absurd hl id
  · rcases List.mem_append.mp hl with hl | hl
    · exact h.below l (hlog ▸ hl)
    · obtain ⟨k, st, hst, hl⟩ := hlisted l hl
      exact h.sound.listener hst hl
  · cases hs
  · cases hs

theorem inv_step (s : QueryLoop) (a : Act) (h : s.Inv) : (s.step a).Inv := by
  cases a with
  | newQuery k =>
      obtain ⟨st, hj⟩ := s.pqm.exists_joined k
      exact inv_handled h (hj.proper h.sound)
  | received k p o => exact inv_handled h ((outcome_receivedProvider p o).proper h.sound)
  | finished k o => exact inv_handled h ((outcome_finishedProviderQuery o).proper h.sound)
  | cancel l k => exact inv_handled h ((outcome_cancelRequest l).proper h.sound)
  | perform => exact inv_perform h
  | giveUp =>
      rw [step]
      split
      · rename_i hctx
        exact inv_giveUp h hctx
      · exact h
  | cancelContext =>
      refine ⟨h.sound, h.doing, h.respects, h.below, h.isOpen, h.cancelled, fun hctx => ?_,
        fun _ => rfl⟩
      cases hctx
  | shutdown o ol =>
      rw [step]
      split
      · rename_i hready
        exact inv_shutdown h hready.1 hready.2 o ol
      · exact h

end Steps

theorem inv_run (acts : List Act) : (run step start acts).Inv :=
  run_invariant inv_step acts inv_start

/-- **Provider channels are never misused.**  Whatever messages are handled in whatever order, and
whenever the manager is shut down: no channel that has been closed is closed or sent on again, and
no listener is in two queries; while the manager's context is not done, between two messages each
query in progress has a listener, and a query's context is cancelled just when the query is not in
progress any more. -/
theorem channels_never_misused (acts : List Act) :
    let s := run step start acts
    s.done.Pairwise Respects ∧
      (∀ k k' st st' l, s.pqm.status k = some st → s.pqm.status k' = some st' →
        l ∈ st.listeners → l ∈ st'.listeners → k = k') ∧
      (s.ctxDone = false → s.todo = [] →
        (∀ k st, s.pqm.status k = some st → ∃ l, l ∈ st.listeners) ∧
        ∀ c < s.pqm.nextContext, s.Cancelled c ↔ ¬ s.pqm.InProgress c) := by
  intro s
  have h : s.Inv := inv_run acts
  refine ⟨h.respects.sublist (List.sublist_append_left _ _), fun _ _ _ _ _ => h.sound.oneQuery,
    fun hctx htodo => ⟨fun k st hst => ?_, fun c hc => ?_⟩⟩
  · exact GoMap.len_ne_zero.mp (h.listened hctx k st hst)
  · have hs : s.stopped = false := by
      by_contra hs
      cases hctx.symm.trans (h.stopped (by simpa using hs))
    have hcancelled := h.cancelled hs c
    rw [log_of_idle ⟨hs, htodo⟩] at hcancelled
    rw [Cancelled, hctx]
    simp [hcancelled, hc]

end QueryLoop

end BitswapAuth
