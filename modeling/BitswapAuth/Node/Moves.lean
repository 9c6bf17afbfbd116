/-
# `BitswapAuth.Node.Moves` — a step of the node is a step of the life of each want

Every action but the beginning of a call and the publication of a block, which
need to know more, makes each want of an open session take a step of its life or
none.  The sessions ask for each block under one auth, and a call that ends
without some blocks is the only one of its session that asks for them.
-/
import BitswapAuth.Node.Standing

namespace BitswapAuth

open Lib

namespace Node

/-- The session is open. -/
def Open (n : Node) (sid : SessionID) (s : Session) : Prop :=
  n.sessions.lookup sid = some s ∧ s.done = false

/-- An open session asks for each block under one auth. -/
def OneAuth (n : Node) : Prop :=
  ∀ sid s, n.Open sid s → ∀ w k, n.Requested sid w → n.Requested sid k → SessionWants.Sole w k

/-- A call on an open session that has not sent its operation has got nothing. -/
def Unserved (n : Node) : Prop :=
  ∀ r ∈ n.requests, ∀ s, n.Open r.session s → r.asked = false → r.closed = false →
    ∀ w ∈ r.wants, w.cid ∈ r.keys

/-- Every want asked for takes a step of its life. -/
def Steps (n n' : Node) : Prop :=
  ∀ sid s', n'.Open sid s' → ∀ w, n.Requested sid w →
    ∃ s, n.Open sid s ∧ (n.life sid s w).Step (n'.life sid s' w)

/-- A call that takes a step of its own: it gets nothing from its subscription. -/
structure Follows (r r' : Request) : Prop extends r.Kin r' where
  keys : r'.keys = r.keys
  asked : r'.asked = false → r.asked = false
  closed : r'.closed = false → r.closed = false

/-- What the steps of sessions and calls do: every want asked for takes a step of its
life. -/
structure Moves (n n' : Node) : Prop where
  steps : n.Steps n'
  requests : ∀ r' ∈ n'.requests, ∃ r ∈ n.requests, Follows r r'
  receives : n'.receives = n.receives

variable {n n' : Node} {sid : SessionID} {f : Session → Session} {i : Nat}

theorem Steps.refl (n : Node) : n.Steps n := fun _ s hs _ _ => ⟨s, hs, .refl _⟩

theorem Follows.refl (r : Request) : Follows r r := ⟨⟨rfl, rfl⟩, rfl, id, id⟩

theorem Steps.moves (h : n.Steps n') (hreq : n'.requests = n.requests)
    (hrec : n'.receives = n.receives) : n.Moves n' :=
  ⟨h, fun r hr => ⟨r, hreq ▸ hr, .refl r⟩, hrec⟩

theorem Moves.refl (n : Node) : n.Moves n := (Steps.refl n).moves rfl rfl

/-! ## Steps of sessions -/

theorem moves_onSession (h : ∀ s, n.sessions.lookup sid = some s → (f s).done = false →
    s.done = false ∧ ∀ w, n.Requested sid w → (n.life sid s w).Step (n.life sid (f s) w)) :
    n.Moves (n.onSession sid f) := by
  refine Steps.moves ?_ rfl rfl
  rintro sid' s' ⟨hs', hd⟩ w hw
  rcases GoMap.lookup_modify_eq_some.mp hs' with ⟨rfl, s, hs, rfl⟩ | ⟨-, hs'⟩
  · obtain ⟨hd', hstep⟩ := h s hs hd
    exact ⟨s, ⟨hs, hd'⟩, hstep w hw⟩
  · exact ⟨s', ⟨hs', hd⟩, .refl _⟩

theorem Wf.moves_keeps (hwf : n.Wf) (ho : n.OneAuth)
    (h : ∀ s : Session, s.Books sid (n.Requested sid) → ∀ w, s.Keeps (n.Requested sid) w (f s)) :
    n.Moves (n.onSession sid f) := by
  refine moves_onSession fun s hs hd => ?_
  have hk := h s (hwf.books sid s hs)
  have hd' : s.done = false := (hk .undefined).done ▸ hd
  exact ⟨hd', fun w hw => step_of_keeps (fun k => ho sid s ⟨hs, hd'⟩ w k hw) (hk w)⟩

/-- An operation is nothing to the entries of other sessions. -/
theorem findAfter_of_ne {now : Time} {s : Session} {sim : SessionInterestManager}
    {oper : Session.Op} {w : Want} (h : sid ≠ s.id) :
    s.findAfter now sim oper sid w = sim.find sid w := by
  obtain ⟨op, keys, wants⟩ := oper
  cases op <;> simp [Session.findAfter, h]

theorem Wf.moves_takeOp (hwf : n.Wf) (ho : n.OneAuth) (sid : SessionID) (now : Time) :
    n.Moves (n.takeOp sid now) := by
  rw [Node.takeOp]
  split
  · exact .refl n
  · rename_i s hs
    split
    · rename_i oper rest hl hinc
      have hb := hwf.books sid s hs
      have hh := Session.handled_handle now { s with incoming := rest } n.sim oper
      refine Steps.moves ?_ rfl rfl
      rintro sid' s' ⟨hs', hd⟩ w hw
      dsimp only at hs' hd ⊢
      rcases GoMap.lookup_insert_eq_some.mp hs' with ⟨rfl, rfl⟩ | ⟨hne, hs'⟩
      · have hd' : s.done = false := hh.frame.done.symm.trans hd
        exact ⟨s, ⟨hs, hd'⟩,
          step_handled hb (fun k => ho sid' s ⟨hs, hd'⟩ w k hw) hl hinc rfl hh⟩
      · refine ⟨s', ⟨hs', hd⟩, ?_⟩
        have hid : s.id = sid := hb.id
        have hfind := (hh.find sid' w).trans (findAfter_of_ne (by rw [hid]; exact hne))
        have he : Node.life { n with
            sessions := n.sessions.insert sid (Session.handle now { s with incoming := rest }
              n.sim oper).1
            sim := (Session.handle now { s with incoming := rest } n.sim oper).2 } sid' s' w =
            n.life sid' s' w := by
          simp only [life, hfind]
        rw [he]
        exact .refl _
    · exact .refl n

/-- What the calls of a turn change: the session in which it is, by nothing that is
anything to a want. -/
structure Called (sid : SessionID) (n n' : Node) : Prop where
  requests : n'.requests = n.requests
  receives : n'.receives = n.receives
  sim : n'.sim = n.sim
  others : ∀ sid', sid' ≠ sid → n'.sessions.lookup sid' = n.sessions.lookup sid'
  session : ∀ s', n'.sessions.lookup sid = some s' → ∃ s, n.sessions.lookup sid = some s ∧
    ∀ P w, s.Keeps P w s'

theorem Called.refl (sid : SessionID) (n : Node) : Called sid n n :=
  ⟨rfl, rfl, rfl, fun _ _ => rfl, fun s hs => ⟨s, hs, fun P w => .refl P w s⟩⟩

theorem Called.trans {n'' : Node} (h : Called sid n n') (h' : Called sid n' n'') :
    Called sid n n'' := by
  refine ⟨h'.requests.trans h.requests, h'.receives.trans h.receives, h'.sim.trans h.sim,
    fun sid' hne => (h'.others sid' hne).trans (h.others sid' hne), fun s'' hs'' => ?_⟩
  obtain ⟨s', hs', hk'⟩ := h'.session s'' hs''
  obtain ⟨s, hs, hk⟩ := h.session s' hs'
  exact ⟨s, hs, fun P w => (hk P w).trans (hk' P w)⟩

theorem called_onSession (h : ∀ (s : Session) P w, s.Keeps P w (f s)) :
    Called sid n (n.onSession sid f) := by
  refine ⟨rfl, rfl, rfl, fun sid' hne => ?_, fun s' hs' => ?_⟩
  · show (n.sessions.modify sid f).lookup sid' = _
    rw [GoMap.lookup_modify, if_neg hne]
  · replace hs' : (n.sessions.modify sid f).lookup sid = some s' := hs'
    rw [GoMap.lookup_modify, if_pos rfl] at hs'
    obtain ⟨s, hs, rfl⟩ := Option.map_eq_some_iff.mp hs'
    exact ⟨s, hs, h s⟩

theorem called_call {e : Effect} (h : SessionWantSender.cancelledBy e = none) :
    Called sid n (n.call sid e) := by
  cases e with
  | signalUnavailable p =>
      exact called_onSession fun s P w => ⟨rfl, Iff.rfl, fun _ => rfl, fun ht => ht, rfl⟩
  | onPeersExhausted ws =>
      exact called_onSession fun s P w => Session.keeps_nonBlockingEnqueue (.inr rfl)
  | onSend p bs hs =>
      exact called_onSession fun s P w => Session.keeps_nonBlockingEnqueue (.inl rfl)
  | cancelSessionWants ws => exact absurd h (by simp [SessionWantSender.cancelledBy])
  | registerSession p | sendWants p bs hs => exact .refl sid n

theorem called_foldl_call : ∀ (l : List Effect) {n : Node},
    (∀ e ∈ l, SessionWantSender.cancelledBy e = none) → Called sid n (l.foldl (call sid) n)
  | [], n, _ => .refl sid n
  | e :: l, _, h => (called_call (h e List.mem_cons_self)).trans
      (called_foldl_call l fun e' he' => h e' (List.mem_cons_of_mem e he'))

theorem called_insert {s s' : Session} (hs : n.sessions.lookup sid = some s)
    (hk : ∀ P w, s.Keeps P w s') :
    Called sid n { n with sessions := n.sessions.insert sid s' } := by
  refine ⟨rfl, rfl, rfl, fun sid' hne => ?_, fun s'' hs'' => ?_⟩
  · show (n.sessions.insert sid s').lookup sid' = _
    rw [GoMap.lookup_insert_ite, if_neg hne]
  · replace hs'' : (n.sessions.insert sid s').lookup sid = some s'' := hs''
    rw [GoMap.lookup_insert_ite, if_pos rfl] at hs''
    obtain rfl := Option.some.inj hs''
    exact ⟨s, hs, hk⟩

theorem Wf.called_onChange (hwf : n.Wf) (sid : SessionID) : Called sid n (n.onChange sid) := by
  rw [Node.onChange]
  split
  · exact .refl sid n
  · rename_i s hs
    split
    · exact .refl sid n
    · exact (called_insert hs fun P w => Session.keeps_turn n.bpm changesBufferSize).trans
        (called_foldl_call _ fun e he => ((hwf.turn hs changesBufferSize).2 e he).2)

theorem Called.moves (h : Called sid n n') (ho : n.OneAuth) : n.Moves n' := by
  refine Steps.moves ?_ h.requests h.receives
  rintro sid' s' ⟨hs', hd⟩ w hw
  have hlife : n'.life sid' s' w = n.life sid' s' w := by simp only [life, h.requests, h.sim]
  rw [hlife]
  by_cases he : sid' = sid
  · subst he
    obtain ⟨s, hs, hk⟩ := h.session s' hs'
    have hopen : n.Open sid' s := ⟨hs, (hk (n.Requested sid') w).done ▸ hd⟩
    exact ⟨s, hopen, step_of_keeps (fun k => ho sid' s hopen w k hw) (hk _ w)⟩
  · exact ⟨s', ⟨(h.others sid' he).symm.trans hs', hd⟩, .refl _⟩

theorem moves_removeSession (sid : SessionID) (o : RangeOrder) :
    n.Moves (n.removeSession sid o) := by
  rw [Node.removeSession]
  split
  · exact .refl n
  · split
    · refine Steps.moves ?_ rfl rfl
      rintro sid' s' ⟨hs', hd⟩ w hw
      obtain ⟨hne, hs'⟩ := GoMap.lookup_erase_eq_some.mp hs'
      have hfind : (n.sim.removeSession sid o).1.find sid' w = n.sim.find sid' w :=
        (SessionInterestManager.find_removeSession o).trans (if_neg hne)
      refine ⟨s', ⟨hs', hd⟩, ?_⟩
      simp only [life, hfind]
      exact .refl (n.life sid' s' w)
    · exact .refl n

/-- A new session has a new ID, so nobody has asked it for anything. -/
theorem moves_insert_new {s : Session} (h : ∀ r ∈ n.requests, r.session ≠ sid) :
    n.Moves { n with sessions := n.sessions.insert sid s } := by
  refine Steps.moves ?_ rfl rfl
  rintro sid' s' ⟨hs', hd⟩ w hw
  rcases GoMap.lookup_insert_eq_some.mp hs' with ⟨rfl, rfl⟩ | ⟨-, hs'⟩
  · obtain ⟨r, hr, hsid, -⟩ := hw
    exact absurd hsid (h r hr)
  · exact ⟨s', ⟨hs', hd⟩, .refl _⟩

/-! ## Steps of requests -/

/-- What a step of a call leaves as it is of a want. -/
structure Likewise (sid : SessionID) (w : Want) (r r' : Request) : Prop where
  fresh : r'.Fresh sid w ↔ r.Fresh sid w
  waiting : r'.Waiting sid w ↔ r.Waiting sid w
  served : r'.Served sid w ↔ r.Served sid w

/-- The calls on one session are nothing to the wants of another. -/
theorem likewise_of_ne {w : Want} {r r' : Request} (hk : r.Kin r') (h : r.session ≠ sid) :
    Likewise sid w r r' := by
  have h' : r'.session ≠ sid := fun hs => h (hk.session ▸ hs)
  exact ⟨⟨fun hf => absurd hf.1 h', fun hf => absurd hf.1 h⟩,
    ⟨fun hf => absurd hf.1 h', fun hf => absurd hf.1 h⟩,
    ⟨fun hf => absurd hf.1 h', fun hf => absurd hf.1 h⟩⟩

variable {g : Request → Request} {s : Session} {w : Want}

theorem life_modify (hreq : n'.requests = n.requests.modify i g) (hsim : n'.sim = n.sim)
    (h : ∀ r, n.requests[i]? = some r → Likewise sid w r (g r)) :
    n'.life sid s w = n.life sid s w := by
  have hf : (∃ r ∈ n'.requests, r.Fresh sid w) ↔ ∃ r ∈ n.requests, r.Fresh sid w :=
    hreq ▸ exists_mem_modify fun r hr => (h r hr).fresh
  have hw : (∃ r ∈ n'.requests, r.Waiting sid w) ↔ ∃ r ∈ n.requests, r.Waiting sid w :=
    hreq ▸ exists_mem_modify fun r hr => (h r hr).waiting
  have hs : (∃ r ∈ n'.requests, r.Served sid w) ↔ ∃ r ∈ n.requests, r.Served sid w :=
    hreq ▸ exists_mem_modify fun r hr => (h r hr).served
  simp only [life, hf, hw, hs, hsim]

theorem follows_modify (hf : ∀ r, n.requests[i]? = some r → Follows r (g r)) :
    ∀ r' ∈ n.requests.modify i g, ∃ r ∈ n.requests, Follows r r' := by
  intro r' hr'
  obtain ⟨j, r, hr, rfl⟩ := Lib.mem_modify.mp hr'
  refine ⟨r, List.mem_of_getElem? hr, ?_⟩
  split
  · rename_i hij
    subst hij
    exact hf r hr
  · exact .refl r

/-- A step of a call that is nothing to any want. -/
theorem moves_onRequest (hf : ∀ r, n.requests[i]? = some r → Follows r (g r))
    (h : ∀ r, n.requests[i]? = some r → ∀ sid s, n.Open sid s → ∀ w, Likewise sid w r (g r)) :
    n.Moves (n.onRequest i g) := by
  refine ⟨?_, follows_modify hf, rfl⟩
  intro sid s hs w _
  have he : (n.onRequest i g).life sid s w = n.life sid s w :=
    life_modify rfl rfl fun r hr => h r hr sid s hs w
  exact ⟨s, hs, he ▸ .refl _⟩

/-- A call that puts an operation into the queue of its session: how the wants of
that session move, and that the others stay. -/
theorem moves_enqueue {r : Request} {o : Session.Op} (hr : n.requests[i]? = some r)
    (hf : ∀ r, Follows r (g r)) (h : ∀ s, n.Open r.session s → ∀ w, n.Requested r.session w →
      (n.life r.session s w).Step
        (((n.onSession r.session (·.enqueue o)).onRequest i g).life r.session (s.enqueue o) w)) :
    n.Moves ((n.onSession r.session (·.enqueue o)).onRequest i g) := by
  refine ⟨?_, follows_modify (n := n) fun r _ => hf r, rfl⟩
  rintro sid s' ⟨hs', hd⟩ w hw
  rcases GoMap.lookup_modify_eq_some.mp hs' with ⟨rfl, s, hs, rfl⟩ | ⟨hne, hs'⟩
  · exact ⟨s, ⟨hs, hd⟩, h s ⟨hs, hd⟩ w hw⟩
  · have he : ((n.onSession r.session (·.enqueue o)).onRequest i g).life sid s' w =
        n.life sid s' w :=
      life_modify rfl rfl fun r' hr' => by
        obtain rfl := Option.some.inj (hr.symm.trans hr')
        exact likewise_of_ne (hf r).toKin fun h => hne h.symm
    exact ⟨s', ⟨hs', hd⟩, he ▸ .refl _⟩

theorem Wf.moves_ask (hwf : n.Wf) {r : Request} (hr : n.requests[i]? = some r)
    (hst : r.started = false) :
    n.Moves ((n.onSession r.session (·.enqueue { op := .opWant, wants := r.wants })).onRequest i
      fun r => { r with asked := true, started := true }) := by
  refine moves_enqueue hr (fun r => ⟨⟨rfl, rfl⟩, rfl, fun h => absurd h (by simp), id⟩)
    fun s hs w hw => ?_
  have hrm := List.mem_of_getElem? hr
  set n' := (n.onSession r.session (·.enqueue { op := .opWant, wants := r.wants })).onRequest i
    (fun r => { r with asked := true, started := true }) with hn'
  by_cases hm : w ∈ r.wants
  · have hq : Session.notes w (s.incoming ++ [{ op := .opWant, wants := r.wants }]) =
        Session.notes w s.incoming ++ [.want] := by
      rw [Session.notes_append]
      simp [Session.notes, Session.Op.note, hm]
    have hfresh : (n.life r.session s w).fresh := by
      obtain ⟨ha, hc⟩ := (hwf.requests r hrm).started hst
      exact ⟨r, hrm, rfl, hm, hc, ha⟩
    have he : n'.life r.session (s.enqueue { op := .opWant, wants := r.wants }) w =
        { n.life r.session s w with
          fresh := ∃ r' ∈ n'.requests, r'.Fresh r.session w
          queue := (n.life r.session s w).queue ++ [.want] } :=
      Life.ext rfl (propext (exists_mem_modify fun _ _ => Iff.rfl))
        (propext (exists_mem_modify fun _ _ => Iff.rfl)) hq rfl rfl rfl rfl rfl
    rw [he]
    exact .ask _ hfresh
  · have he : n'.life r.session (s.enqueue { op := .opWant, wants := r.wants }) w =
        n.life r.session (s.enqueue { op := .opWant, wants := r.wants }) w :=
      life_modify rfl rfl fun r' hr' => by
        obtain rfl := Option.some.inj (hr.symm.trans hr')
        exact ⟨⟨fun h => absurd h.2.1 hm, fun h => absurd h.2.1 hm⟩, Iff.rfl, Iff.rfl⟩
    rw [he]
    exact step_of_keeps (P := fun _ => False) (fun _ => False.elim)
      (Session.keeps_enqueue (by simp [Session.Op.note, hm]))

theorem Wf.moves_want (hwf : n.Wf) (i : Nat) (skip : Bool) : n.Moves (n.want i skip) := by
  rcases n.want_cases i skip with he | ⟨r, hr, hst, he | he⟩
  · rw [he]
    exact .refl n
  · rw [he]
    exact moves_onRequest (fun r _ => ⟨⟨rfl, rfl⟩, rfl, id, id⟩)
      fun r _ sid _ _ w => ⟨Iff.rfl, Iff.rfl, Iff.rfl⟩
  · rw [he]
    exact hwf.moves_ask hr hst

/-- No other call of the session, now or before, asks for the blocks that a call is
left without. -/
def Alone (n : Node) (i : Nat) (lost : Bool) (r : Request) : Prop :=
  ∀ j < n.requests.length, ∀ r' ∈ n.requests[j]?, j ≠ i → r'.session = r.session →
    ∀ w ∈ r'.wants, w.cid ∉ r.left lost

instance (n : Node) (i : Nat) (lost : Bool) (r : Request) : Decidable (n.Alone i lost r) :=
  inferInstanceAs (Decidable (∀ j < _, ∀ r' ∈ n.requests[j]?, _))

theorem Alone.eq_of_mem {r r' : Request} {lost : Bool} {j : Nat} (h : n.Alone i lost r)
    (hm : w.cid ∈ r.left lost) (hr' : n.requests[j]? = some r') (hs' : r'.session = r.session)
    (hw' : w ∈ r'.wants) : j = i := by
  by_contra hne
  exact h j (List.getElem?_eq_some_iff.mp hr').1 r' hr' hne hs' w hw' hm

/-- After a call that was alone has ended, all calls for its blocks have. -/
theorem Alone.closed {r r' : Request} {lost : Bool} (h : n.Alone i lost r)
    (hm : w.cid ∈ r.left lost) (hr' : r' ∈ n.requests.modify i (·.close lost))
    (hs' : r'.session = r.session) (hw' : w ∈ r'.wants) : r'.closed = true := by
  obtain ⟨j, y, hy, rfl⟩ := Lib.mem_modify.mp hr'
  by_cases hij : i = j
  · rw [if_pos hij]
    rfl
  · rw [if_neg hij] at hs' hw'
    exact absurd (h.eq_of_mem hm hy hs' hw').symm hij

theorem follows_close (r : Request) (lost : Bool) : Follows r (r.close lost) :=
  ⟨⟨rfl, rfl⟩, rfl, id, fun h => absurd h (by simp [Request.close])⟩

theorem Wf.moves_close (hwf : n.Wf) (hu : n.Unserved) {r : Request} {lost : Bool}
    (hr : n.requests[i]? = some r)
    (halone : ∀ s, n.Open r.session s → n.Alone i lost r) :
    n.Moves ((n.onSession r.session
      (·.enqueue { op := .opCancel, keys := (r.left lost).keys })).onRequest i (·.close lost)) := by
  refine moves_enqueue hr (fun r => follows_close r lost) fun s hs w hw => ?_
  have hrm := List.mem_of_getElem? hr
  have hok := hwf.requests r hrm
  set o : Session.Op := { op := .opCancel, keys := (r.left lost).keys } with hop
  set n' := (n.onSession r.session (·.enqueue o)).onRequest i (·.close lost) with hn'
  by_cases hm : w.cid ∈ r.left lost
  · have ha := halone s hs
    have honly : ∀ r' ∈ n.requests, r'.session = r.session → w ∈ r'.wants → r' = r :=
      fun r' hr' hs' hw' => by
        obtain ⟨j, hj⟩ := List.mem_iff_getElem?.mp hr'
        obtain rfl := ha.eq_of_mem hm hj hs' hw'
        exact Option.some.inj (hj.symm.trans hr)
    have hq : Session.notes w (s.incoming ++ [o]) = Session.notes w s.incoming ++ [.cancel] := by
      rw [Session.notes_append]
      simp [Session.notes, Session.Op.note, hop, AList.mem_keys.mp hm]
    have he : n'.life r.session (s.enqueue o) w = { n.life r.session s w with
        fresh := False, waiting := False
        queue := (n.life r.session s w).queue ++ [.cancel] } := by
      refine Life.ext (eq_false ?_) (eq_false ?_)
        (propext (exists_mem_modify fun _ _ => Iff.rfl)) hq rfl rfl rfl rfl rfl
      · rintro ⟨r', hr', hs', hw', hc, -⟩
        exact absurd (ha.closed hm hr' hs' hw') (by simp [hc])
      · rintro ⟨r', hr', hs', hw', hc, -⟩
        exact absurd (ha.closed hm hr' hs' hw') (by simp [hc])
    rw [he]
    refine .giveUp ?_
    rintro ⟨r₁, hr₁, hs₁, hw₁, hk₁⟩ ⟨r₂, hr₂, hs₂, hw₂, -, hk₂⟩
    rw [honly r₁ hr₁ hs₁ hw₁] at hk₁
    rw [honly r₂ hr₂ hs₂ hw₂] at hk₂
    exact hk₁ hk₂
  · -- a call that waits for the block, or is fresh, would be left without it
    have hkeys : w.cid ∉ r.keys := fun hk => hm (Request.mem_left_of_keys hok hk)
    have he : n'.life r.session (s.enqueue o) w = n.life r.session (s.enqueue o) w :=
      life_modify rfl rfl fun r' hr' => by
        obtain rfl := Option.some.inj (hr.symm.trans hr')
        refine ⟨⟨fun h => absurd h.2.2.1 (by simp [Request.close]), fun h => ?_⟩,
          ⟨fun h => absurd h.2.2.2 hkeys, fun h => absurd h.2.2.2 hkeys⟩, Iff.rfl⟩
        exact absurd (hu r hrm s hs h.2.2.2 h.2.2.1 w h.2.1) hkeys
    rw [he]
    refine step_of_keeps (P := fun _ => False) (fun _ => False.elim) (Session.keeps_enqueue ?_)
    simp [Session.Op.note, hop, mt AList.mem_keys.mpr hm]

theorem not_open_of_done (h : n.sessionDone sid = true) : ¬ n.Open sid s := by
  rintro ⟨hs, hd⟩
  unfold sessionDone at h
  rw [hs] at h
  exact absurd (hd.symm.trans h) (by simp)

theorem Wf.moves_finish (hwf : n.Wf) (hu : n.Unserved) {lost skip : Bool}
    (halone : ∀ r, n.requests[i]? = some r → r.closed = false → ∀ s, n.Open r.session s →
      n.Alone i lost r) : n.Moves (n.finish i lost skip) := by
  rcases n.finish_cases i lost skip with he | ⟨r, hr, -, hopen, ⟨hdone, he⟩ | he⟩
  · rw [he]
    exact .refl n
  · rw [he]
    -- the session is not open
    refine moves_onRequest (fun r _ => follows_close r lost) fun r' hr' sid s hs w => ?_
    obtain rfl := Option.some.inj (hr.symm.trans hr')
    refine likewise_of_ne ⟨rfl, rfl⟩ fun hsid => ?_
    subst hsid
    exact not_open_of_done hdone hs
  · rw [he]
    exact hwf.moves_close hu hr (halone r hr hopen)

end Node

end BitswapAuth
