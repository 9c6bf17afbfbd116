/-
# `BitswapAuth.Session.Timers` — the two timers that keep a session going

A session that gets no blocks broadcasts its wants again when `idleTick` fires, and widens its
search when `periodicSearchTimer` does.  Each handler arms its timer anew:

    broadcast              arms the idle timer, on every way through
    handleReceive          stops the idle timer, and arms it
    handlePeriodicSearch   arms the search timer if there is a want to search for

The last of these is where it fails.  If the tick comes while no want has been sent yet, it returns
before the timer is armed, and nothing else ever arms that timer: the session may have
wants afterwards but searches for none of them (`search_timer_dead`).  Otherwise both timers are
armed, or have fired and wait for the loop, whenever the loop is at its `select`
(`timers_alive_iff`).
-/
import BitswapAuth.Session.Session
import BitswapAuth.Lib.Run

namespace BitswapAuth

open Lib

namespace Session

/-! ## The run loop -/

/-- What happens to a session that is not shut down. -/
inductive Event where
  /-- The loop takes an operation. -/
  | op (now : Time) (sim : SessionInterestManager) (oper : Op)
  | passAdd
  | passCancel
  | passFirst (now : Time)
  /-- The loop takes a tick of a timer, for the random index and the next delay of a search. -/
  | idleTick (now : Time)
  | searchTick (i nextWaitTime : Nat)
  | baseTickDelay (d : Nat)
  /-- The delay of a timer is over. -/
  | idleFires
  | searchFires
  /-- The want sender goes on. -/
  | sender (sws : SessionWantSender) (changes : List Change)

def step (s : Session) : Event → Session
  | .op now sim oper => if s.loop = .select then (s.handle now sim oper).1 else s
  | .passAdd => s.passAdd
  | .passCancel => s.passCancel
  | .passFirst now => s.passFirst now
  | .idleTick now => s.onIdleTick now
  | .searchTick i nextWaitTime => s.onSearchTick i nextWaitTime
  | .baseTickDelay d => s.onBaseTickDelay d
  | .idleFires => { s with idleTick := s.idleTick.fire }
  | .searchFires => { s with periodicSearchTimer := s.periodicSearchTimer.fire }
  | .sender sws changes => { s with sws := sws, changes := changes }

/-- Between two rounds of the loop both timers are alive. -/
def TimersAlive (s : Session) : Prop :=
  s.loop = .select → s.idleTick.Alive ∧ s.periodicSearchTimer.Alive

instance (s : Session) : Decidable s.TimersAlive := inferInstanceAs (Decidable (_ → _))

/-- When the loop takes a tick of the search timer, there is a want to search for. -/
def FindsWant (s : Session) : Event → Prop
  | .searchTick i _ =>
      s.loop = .select ∧ s.periodicSearchTimer.fired.isSome = true →
        (s.sw.randomLiveWant i).cid.defined = true
  | _ => True

instance (s : Session) : (e : Event) → Decidable (s.FindsWant e)
  | .searchTick .. => inferInstanceAs (Decidable (_ → _))
  | .op .. | .passAdd | .passCancel | .passFirst _ | .idleTick _ | .baseTickDelay _ | .idleFires
  | .searchFires | .sender .. => isTrue trivial

/-- What holds of the timers in every state, while every tick finds a want. -/
structure Ticking (s : Session) : Prop where
  idle : s.idleTick.Alive
  search : s.periodicSearchTimer.Alive
  single : s.periodicSearchTimer.Single

section

variable {s : Session}

/-- A step that leaves the search timer alone, and the idle timer or arms it. -/
structure KeepsTimers (s s' : Session) : Prop where
  search : s'.periodicSearchTimer = s.periodicSearchTimer
  idle : s.idleTick.Alive → s'.idleTick.Alive

theorem KeepsTimers.of_eq {s' : Session} (hs : s'.periodicSearchTimer = s.periodicSearchTimer)
    (hi : s'.idleTick = s.idleTick) : KeepsTimers s s' :=
  ⟨hs, fun h => hi ▸ h⟩

theorem KeepsTimers.refl (s : Session) : KeepsTimers s s := .of_eq rfl rfl

theorem KeepsTimers.ticking {s' : Session} (h : KeepsTimers s s') (ht : s.Ticking) :
    s'.Ticking :=
  ⟨h.idle ht.idle, h.search ▸ ht.search, h.search ▸ ht.single⟩

theorem periodicSearchTimer_broadcast (now : Time) (s : Session) (ws : Option (List Want)) :
    (broadcast now s ws).1.periodicSearchTimer = s.periodicSearchTimer := by
  rw [broadcast, countTick]
  cases (s.toBroadcast now ws).2 with
  | nil => split <;> rfl
  | cons c ws =>
      rw [searchFirst]
      split <;> split <;> rfl

/-- A broadcast arms the idle timer. -/
theorem alive_idleTick_broadcast (now : Time) (s : Session) (ws : Option (List Want)) :
    (broadcast now s ws).1.idleTick.Alive := by
  rw [broadcast, countTick]
  dsimp only
  split <;> exact Timer.alive_reset _ _

theorem keepsTimers_handleReceive (now : Time) (s : Session) (ks : List Want) :
    KeepsTimers s (s.handleReceive now ks).1 := by
  rw [handleReceive]
  dsimp only
  split
  · exact .of_eq rfl rfl
  · exact ⟨rfl, fun _ => Timer.alive_reset _ _⟩

theorem keepsTimers_handle (now : Time) (s : Session) (sim : SessionInterestManager) (oper : Op) :
    KeepsTimers s (s.handle now sim oper).1 := by
  rw [handle]
  cases oper.op with
  | opReceive => exact keepsTimers_handleReceive now s oper.wants
  | opWant =>
      show KeepsTimers s (s.wantBlocks oper.wants)
      rw [wantBlocks]
      split <;> exact .of_eq rfl rfl
  | opCancel =>
      dsimp only
      split <;> exact .of_eq rfl rfl
  | opWantsSent => exact .of_eq rfl rfl
  | opBroadcast =>
      exact ⟨periodicSearchTimer_broadcast now s _, fun _ => alive_idleTick_broadcast now s _⟩

theorem keepsTimers_passFirst (s : Session) (now : Time) : KeepsTimers s (s.passFirst now) := by
  rw [passFirst]
  split
  · rw [sendFirst]
    dsimp only
    split <;> exact .of_eq rfl rfl
  · exact .refl s

theorem keepsTimers_onIdleTick (s : Session) (now : Time) : KeepsTimers s (s.onIdleTick now) := by
  rw [onIdleTick]
  split
  · exact ⟨periodicSearchTimer_broadcast now _ none, fun _ => alive_idleTick_broadcast now _ none⟩
  · exact .refl s

/-- The search timer once its tick is handled. -/
theorem onSearchTick_cases (s : Session) (i d : Nat) :
    (¬ (s.loop = .select ∧ s.periodicSearchTimer.fired.isSome = true) ∧ s.onSearchTick i d = s) ∨
      ((s.loop = .select ∧ s.periodicSearchTimer.fired.isSome = true) ∧
        (s.onSearchTick i d).loop = .select ∧
        (s.onSearchTick i d).idleTick = s.idleTick ∧
        (s.onSearchTick i d).periodicSearchTimer =
          if (s.sw.randomLiveWant i).cid.defined = true then ⟨some d, none⟩
          else ⟨s.periodicSearchTimer.armed, none⟩) := by
  rw [onSearchTick]
  split
  · rename_i h
    refine .inr ⟨h, ?_⟩
    rw [handlePeriodicSearch]
    dsimp only
    split
    · exact ⟨h.1, rfl, rfl⟩
    · exact ⟨h.1, rfl, rfl⟩
  · rename_i h
    exact .inl ⟨h, rfl⟩

/-- Only the two events of the search timer itself are more than that. -/
theorem keepsTimers_step (s : Session) (e : Event) (ht : ∀ i d, e ≠ .searchTick i d)
    (hf : e ≠ .searchFires) : KeepsTimers s (s.step e) := by
  cases e with
  | op now sim oper =>
      rw [step]
      split
      · exact keepsTimers_handle now s sim oper
      · exact .refl s
  | passAdd =>
      show KeepsTimers s s.passAdd
      rw [passAdd]
      split
      · split
        · exact .of_eq rfl rfl
        · exact .refl s
      · exact .refl s
  | passCancel =>
      show KeepsTimers s s.passCancel
      rw [passCancel]
      split
      · split
        · exact .of_eq rfl rfl
        · exact .refl s
      · exact .refl s
  | passFirst now => exact keepsTimers_passFirst s now
  | idleTick now => exact keepsTimers_onIdleTick s now
  | searchTick i d => exact absurd rfl (ht i d)
  | baseTickDelay d =>
      show KeepsTimers s (s.onBaseTickDelay d)
      rw [onBaseTickDelay]
      split
      · exact .of_eq rfl rfl
      · exact .refl s
  | idleFires => exact ⟨rfl, Timer.alive_fire.mpr⟩
  | searchFires => exact absurd rfl hf
  | sender sws changes => exact .of_eq rfl rfl

theorem ticking_step (s : Session) (e : Event) (h : s.Ticking) (hok : s.FindsWant e) :
    (s.step e).Ticking := by
  cases e with
  | searchTick i d =>
      show (s.onSearchTick i d).Ticking
      rcases s.onSearchTick_cases i d with ⟨-, heq⟩ | ⟨hcond, -, hidle, hsearch⟩
      · rw [heq]
        exact h
      · rw [if_pos (hok hcond)] at hsearch
        refine ⟨hidle ▸ h.idle, hsearch ▸ .inl rfl, ?_⟩
        rw [hsearch]
        exact fun hf => by cases hf
  | searchFires => exact ⟨h.idle, Timer.alive_fire.mpr h.search, Timer.single_fire _⟩
  | _ => exact (keepsTimers_step s _ (by simp) (by simp)).ticking h

theorem dead_step (s : Session) (e : Event) (h : ¬ s.periodicSearchTimer.Alive) :
    ¬ (s.step e).periodicSearchTimer.Alive := by
  cases e with
  | searchTick i d =>
      show ¬ (s.onSearchTick i d).periodicSearchTimer.Alive
      rcases s.onSearchTick_cases i d with ⟨-, heq⟩ | ⟨hcond, -⟩
      · rw [heq]
        exact h
      · exact absurd (.inr hcond.2) h
  | searchFires => exact fun ha => h (Timer.alive_fire.mp ha)
  | _ =>
      rw [(keepsTimers_step s _ (by simp) (by simp)).search]
      exact h

/-- A tick that finds no want leaves the search timer dead. -/
theorem not_timersAlive_step (s : Session) (e : Event) (h : s.Ticking) (hok : ¬ s.FindsWant e) :
    ¬ (s.step e).TimersAlive := by
  cases e with
  | searchTick i d =>
      obtain ⟨hcond, hundef⟩ : (s.loop = .select ∧ s.periodicSearchTimer.fired.isSome = true) ∧
          ¬ (s.sw.randomLiveWant i).cid.defined = true := Classical.not_imp.mp hok
      intro halive
      rcases s.onSearchTick_cases i d with ⟨hno, -⟩ | ⟨-, hloop, -, hsearch⟩
      · exact hno hcond
      · rw [if_neg hundef, h.single hcond.2] at hsearch
        have hdead := (halive hloop).2
        rw [show (s.step (.searchTick i d)).periodicSearchTimer = _ from hsearch] at hdead
        rcases hdead with hrun | hfired
        · cases hrun
        · cases hfired
  | _ => exact absurd trivial hok

end

/-- **The timers of a session.**  In a run, both timers are alive whenever the loop is at its
`select`, just when every tick of the search timer that is taken finds a want to search for; and
from any state in which the search timer is dead, nothing arms it again. -/
theorem timers_alive_iff (id : SessionID) (rng : Nat → Draw)
    (initialSearchDelay nextWaitTime : Nat) (events : List Event) :
    (Always step TimersAlive (new id rng initialSearchDelay nextWaitTime) events ↔
      Meets step FindsWant (new id rng initialSearchDelay nextWaitTime) events) ∧
    ∀ (s : Session) (more : List Event), ¬ s.periodicSearchTimer.Alive →
      ¬ (run step s more).periodicSearchTimer.Alive := by
  have hnew : (new id rng initialSearchDelay nextWaitTime).Ticking :=
    ⟨.inl rfl, .inl rfl, fun hf => by cases hf⟩
  refine ⟨always_iff_meets (fun s h _ => ⟨h.idle, h.search⟩) ticking_step not_timersAlive_step
    events hnew, fun s more h => ?_⟩
  exact run_invariant (I := fun s : Session => ¬ s.periodicSearchTimer.Alive) dead_step more h

/-- The search timer fires once a block has been asked for. -/
theorem timers_alive_searching :
    let w : Want := ⟨⟨[1]⟩, []⟩
    Always step TimersAlive (new 1 (fun _ => .plain) 5 60)
      [.op 0 .new { op := .opWant, wants := [w] }, .passAdd, .passFirst 0, .searchFires,
        .searchTick 0 60, .idleFires, .idleTick 7] := by
  intro w
  exact (timers_alive_iff 1 (fun _ => .plain) 5 60 _).1.mpr (by decide)

/-- The search timer fires before the first block is asked for. -/
theorem search_timer_dead :
    let w : Want := ⟨⟨[1]⟩, []⟩
    let s := run step (new 1 (fun _ => .plain) 5 60)
      [.searchFires, .searchTick 0 60, .op 0 .new { op := .opWant, wants := [w] }, .passAdd,
        .passFirst 0]
    s.loop = .select ∧ s.sw.hasLiveWants = true ∧ ¬ s.periodicSearchTimer.Alive ∧
      ¬ s.TimersAlive := by
  decide

end Session

end BitswapAuth
