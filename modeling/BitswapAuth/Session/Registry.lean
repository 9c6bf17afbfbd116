/-
# `BitswapAuth.Session.Registry` — the sessions that the manager knows

`SessionManager` keeps the sessions in a map, by their ids, to pass messages on to them.

  * `NewSession` creates a session, which starts its run loop at once, and then enters it under the
    lock, unless the manager has been shut down and the map is nil.
  * When the context of the session is done, the run loop shuts the session down in the stages of
    `Session.Marks`; the last of them, `RemoveSession`, deletes the id under the lock.
  * `Shutdown` of the manager takes the sessions out of the map, makes it nil, and then shuts them
    down one by one.

The context may be done at any time, also before the session is created.  Then nothing keeps the
run loop from removing the session before it has been entered; it is entered afterwards, and there
is nobody left to remove it (`kept_after_removal`).  `notKept_iff`: a session that has been entered
and removed is not in the map, in every state of a run, just when none is entered too late.
-/
import BitswapAuth.PeerManager.Manager
import BitswapAuth.Session.Marks

namespace BitswapAuth

open Lib

/-- `SessionManager`, the registry: the map is nil after the shutdown.  A session is known by its
number, in the order of creation. -/
structure SessionManager where
  sessions : Option (GoMap SessionID Nat)
  sessID : SessionID

namespace SessionManager

/-- `New`. -/
def new : SessionManager := ⟨some ∅, 0⟩

/-- `GetNextSessionID`. -/
def getNextSessionID (sm : SessionManager) : SessionManager × SessionID :=
  ({ sm with sessID := sm.sessID + 1 }, sm.sessID + 1)

/-- The second half of `NewSession`, under the lock. -/
def register (sm : SessionManager) (id : SessionID) (session : Nat) : SessionManager :=
  { sm with sessions := sm.sessions.map (·.insert id session) }

/-- What `RemoveSession` does to the registry. -/
def removeSession (sm : SessionManager) (id : SessionID) : SessionManager :=
  { sm with sessions := sm.sessions.map (·.erase id) }

/-- The first half of `Shutdown`, under the lock: the sessions that are to be shut down. -/
def shutdown (sm : SessionManager) (o : RangeOrder) : SessionManager × List Nat :=
  ({ sm with sessions := none }, o.range ((sm.sessions.map GoMap.values).getD []))

/-- The id is in the map. -/
def Has (sm : SessionManager) (id : SessionID) : Prop := ∃ m ∈ sm.sessions, id ∈ m

variable {sm : SessionManager} {id id' : SessionID} {session : Nat}

theorem has_register : (sm.register id session).Has id' ↔
    sm.sessions ≠ none ∧ (id' = id ∨ sm.Has id') := by
  rcases sm with ⟨_ | m, n⟩
  · simp [register, Has]
  · simp [register, Has, AList.mem_insert]

theorem has_removeSession : (sm.removeSession id).Has id' ↔ id' ≠ id ∧ sm.Has id' := by
  rcases sm with ⟨_ | m, n⟩
  · simp [removeSession, Has]
  · simp [removeSession, Has, AList.mem_erase]

theorem not_has_shutdown (o : RangeOrder) : ¬ (sm.shutdown o).1.Has id := by
  rintro ⟨m, hm, -⟩
  cases hm

end SessionManager

/-- A session of the manager: whether its context is done, how far its shutdown has come, and
whether `NewSession` has entered it and returned. -/
structure ManagedSession where
  id : SessionID
  ctxDone : Bool
  stage : Stage
  registered : Bool

/-- The manager with all its sessions; `closing` are those that its shutdown has still to shut
down. -/
structure SessionRegistry where
  sm : SessionManager
  sessions : List ManagedSession
  closing : List Nat

namespace SessionRegistry

/-- `newSession` creates a session, with a context that may be done, and `register` ends that call;
the context of a session is done; the run loop makes the next step of its shutdown; the manager is
shut down, and shuts down the next session. -/
inductive Act where
  | newSession (ctxDone : Bool)
  | register (i : Nat)
  | cancelContext (i : Nat)
  | shutdownSession (i : Nat)
  | shutdown (o : RangeOrder)
  | shutdownNext

def start : SessionRegistry := ⟨.new, [], []⟩

/-- The session does something. -/
def change (s : SessionRegistry) (i : Nat) (f : ManagedSession → ManagedSession) :
    SessionRegistry :=
  { s with sessions := s.sessions.modify i f }

/-- The next step of `handleShutdown`; the last one is `RemoveSession`. -/
def shutdownSession (s : SessionRegistry) (i : Nat) (ses : ManagedSession) : SessionRegistry :=
  match ses.stage with
  | .running => if ses.ctxDone then s.change i ({ · with stage := .untagged }) else s
  | .untagged => s.change i ({ · with stage := .cancelled })
  | .cancelled => s.change i ({ · with stage := .closed })
  | .closed => { s.change i ({ · with stage := .removed }) with sm := s.sm.removeSession ses.id }
  | .removed => s

def step (s : SessionRegistry) : Act → SessionRegistry
  | .newSession ctxDone =>
      let r := s.sm.getNextSessionID
      { s with sm := r.1, sessions := s.sessions ++ [⟨r.2, ctxDone, .running, false⟩] }
  | .register i =>
      match s.sessions[i]? with
      | some ses =>
          if ses.registered then s
          else { s.change i ({ · with registered := true }) with sm := s.sm.register ses.id i }
      | none => s
  | .cancelContext i => s.change i ({ · with ctxDone := true })
  | .shutdownSession i =>
      match s.sessions[i]? with
      | some ses => s.shutdownSession i ses
      | none => s
  | .shutdown o =>
      let r := s.sm.shutdown o
      { s with sm := r.1, closing := s.closing ++ r.2 }
  | .shutdownNext =>
      match s.closing with
      | i :: rest => { s.change i ({ · with ctxDone := true }) with closing := rest }
      | [] => s

/-- A session that has been entered and removed is not in the registry. -/
def NotKept (s : SessionRegistry) : Prop :=
  ∀ ses ∈ s.sessions, ses.registered = true → ses.stage = .removed → ¬ s.sm.Has ses.id

/-- A session that is entered, in a manager that has not been shut down, has not been removed, and
no session that was entered under its id before has. -/
def InTime (s : SessionRegistry) : Act → Prop
  | .register i => s.sm.sessions ≠ none → ∀ ses, s.sessions[i]? = some ses →
      ses.registered = false → ses.stage ≠ .removed ∧
        ∀ ses' ∈ s.sessions, ses'.registered = true → ses'.id = ses.id → ses'.stage ≠ .removed
  | _ => True

section Steps

variable {s : SessionRegistry} {i : Nat}

/-- A change that makes no session entered and removed keeps the registry as it should be. -/
theorem NotKept.change (h : s.NotKept) {f : ManagedSession → ManagedSession}
    (hf : ∀ ses, (f ses).id = ses.id ∧ (f ses).registered = ses.registered ∧
      ((f ses).stage = .removed → ses.stage = .removed)) : (s.change i f).NotKept := by
  refine forall_mem_modify h fun ses hses hreg hrem => ?_
  obtain ⟨hid, hreg', hrem'⟩ := hf ses
  rw [hid]
  exact h ses (List.mem_of_getElem? hses) (hreg' ▸ hreg) (hrem' hrem)

theorem notKept_shutdownSession (h : s.NotKept) {ses : ManagedSession}
    (hses : s.sessions[i]? = some ses) : (s.shutdownSession i ses).NotKept := by
  rw [shutdownSession]
  split
  · split
    · exact h.change fun ses => ⟨rfl, rfl, fun hr => by cases hr⟩
    · exact h
  · exact h.change fun ses => ⟨rfl, rfl, fun hr => by cases hr⟩
  · exact h.change fun ses => ⟨rfl, rfl, fun hr => by cases hr⟩
  · -- the id of the session itself is deleted, and no other is entered
    refine forall_mem_modify (fun ses' hses' hreg hrem hhas => ?_)
      fun ses' hses' hreg hrem hhas => ?_
    · exact h ses' hses' hreg hrem (SessionManager.has_removeSession.mp hhas).2
    · obtain rfl := Option.some.inj (hses.symm.trans hses')
      exact (SessionManager.has_removeSession.mp hhas).1 rfl
  · exact h

theorem notKept_register (h : s.NotKept) (hok : s.InTime (.register i)) :
    (s.step (.register i)).NotKept := by
  rw [step]
  split
  · rename_i ses hses
    split
    · exact h
    · rename_i hreg
      have hreg : ses.registered = false := by simpa using hreg
      refine forall_mem_modify (fun ses' hses' hreg' hrem hhas => ?_)
        fun ses' hses' _ hrem hhas => ?_
      · obtain ⟨hmap, hid⟩ := SessionManager.has_register.mp hhas
        obtain ⟨-, hothers⟩ := hok hmap ses hses hreg
        rcases hid with hid | hold
        · exact hothers ses' hses' hreg' hid hrem
        · exact h ses' hses' hreg' hrem hold
      · obtain rfl := Option.some.inj (hses.symm.trans hses')
        exact (hok (SessionManager.has_register.mp hhas).1 ses hses hreg).1 hrem
  · exact h

theorem notKept_step (s : SessionRegistry) (a : Act) (h : s.NotKept) (hok : s.InTime a) :
    (s.step a).NotKept := by
  cases a with
  | newSession ctxDone =>
      intro ses hses hreg hrem
      rcases List.mem_append.mp hses with hses | hses
      · exact h ses hses hreg hrem
      · rw [List.mem_singleton.mp hses] at hreg
        cases hreg
  | register i => exact notKept_register h hok
  | cancelContext i => exact h.change fun ses => ⟨rfl, rfl, id⟩
  | shutdownSession i =>
      rw [step]
      split
      · rename_i ses hses
        exact notKept_shutdownSession h hses
      · exact h
  | shutdown o => exact fun ses _ _ _ => SessionManager.not_has_shutdown o
  | shutdownNext =>
      rw [step]
      split
      · rename_i i rest _
        have hchange : (s.change i ({ · with ctxDone := true })).NotKept :=
          h.change fun ses => ⟨rfl, rfl, id⟩
        exact hchange
      · exact h

/-- A session that is entered too late is kept, or one of before whose id it has. -/
theorem not_notKept_step (s : SessionRegistry) (a : Act) (hno : ¬ s.InTime a) :
    ¬ (s.step a).NotKept := by
  cases a with
  | register i =>
      simp only [InTime, not_forall] at hno
      obtain ⟨hmap, ses, hses, hreg, hlate⟩ := hno
      intro h
      have hs : s.step (.register i) =
          { s.change i ({ · with registered := true }) with sm := s.sm.register ses.id i } := by
        rw [step, hses]
        exact if_neg (by simp [hreg])
      rw [hs] at h
      have hhas : (s.sm.register ses.id i).Has ses.id :=
        SessionManager.has_register.mpr ⟨hmap, .inl rfl⟩
      by_cases hrem : ses.stage = .removed
      · refine h { ses with registered := true } ?_ rfl hrem hhas
        exact mem_modify.mpr ⟨i, ses, hses, (if_pos rfl).symm⟩
      · refine hlate ⟨hrem, fun ses' hses' hreg' hid hrem' => ?_⟩
        refine h ses' ?_ hreg' hrem' (hid ▸ hhas)
        obtain ⟨j, hj⟩ := List.mem_iff_getElem?.mp hses'
        refine mem_modify.mpr ⟨j, ses', hj, (if_neg ?_).symm⟩
        rintro rfl
        obtain rfl := Option.some.inj (hses.symm.trans hj)
        cases hreg.symm.trans hreg'
  | newSession ctxDone => exact absurd trivial hno
  | cancelContext i => exact absurd trivial hno
  | shutdownSession i => exact absurd trivial hno
  | shutdown o => exact absurd trivial hno
  | shutdownNext => exact absurd trivial hno

end Steps

/-- **A finished session is not kept in the registry**, in every state of a run, just when no
session is entered after it has been removed. -/
theorem notKept_iff (acts : List Act) :
    Always step NotKept start acts ↔ Meets step InTime start acts :=
  always_iff_meets (fun _ h => h) notKept_step (fun s a _ hno => not_notKept_step s a hno) acts
    fun _ hses => absurd hses List.not_mem_nil

/-- The context of the session is done before it is created; its run loop removes it before
`NewSession` enters it, and it stays. -/
theorem kept_after_removal :
    let s := run step start [.newSession true, .shutdownSession 0, .shutdownSession 0,
      .shutdownSession 0, .shutdownSession 0, .register 0]
    (∃ ses, s.sessions = [ses] ∧ ses.id = 1 ∧ ses.registered = true ∧ ses.stage = .removed) ∧
      s.sm.Has 1 ∧ ¬ s.NotKept := by
  intro s
  have hsessions : s.sessions = [⟨1, true, .removed, true⟩] := by rfl
  have hhas : s.sm.Has 1 := ⟨_, rfl, by decide⟩
  refine ⟨⟨_, hsessions, rfl, rfl, rfl⟩, hhas, fun h => ?_⟩
  exact h ⟨1, true, .removed, true⟩ (hsessions ▸ List.mem_singleton_self _) rfl rfl hhas

end SessionRegistry

end BitswapAuth
