import TfsBroker.Lib.Programs

/-!
# A rely-guarantee logic for programs with ranked locks

A `Discipline` says how the threads of a system agree to share its state. One lock,
`main`, guards `res`: whoever takes it finds `res`, and has to give it back before
releasing it. `keeps` relates the states around any step of any thread; `still`
relates the states around a step of a thread that does not hold `main`, so the
thread that does can rely on it. `inv` holds all the time.

`Wp D h s p Q` says that `p`, begun in state `s` by a thread that holds the locks `h`,
acquires locks in the order of their ranks, keeps to the discipline, and returns only
where `Q` holds, whatever the other threads do between its steps. The rules `Wp.lock`,
`Wp.unlock`, … are those of the single instructions, and `Wp.bind` composes.

## Main results

* `Good.next` — when every call is correct, every step keeps every thread correct
* `Good.ranked`, `Good.returned` — what correct threads satisfy
-/

namespace TfsBroker.Programs

universe u

/-- How the threads of a system share its state. -/
structure Discipline (S L C : Type u) extends Locks S L where
  rank : L → ℕ
  main : L
  /-- Somebody holds `main`. -/
  locked : S → Prop
  inv : S → Prop
  res : S → Prop
  keeps : S → S → Prop
  still : S → S → Prop
  /-- What may be relied on when a call takes a lock. -/
  promise : Option C → L → S → Prop

variable {S L C R α β : Type u} {T : Type*}

namespace Discipline

/-- What a thread sees of the steps of others; `mine` tells whether it holds `main`. -/
structure Env (D : Discipline S L C) (mine : Prop) (s s' : S) : Prop where
  inv : D.inv s'
  keeps : D.keeps s s'
  still : mine → D.still s s'

/-- What a thread may do in one access. -/
structure Allowed (D : Discipline S L C) (mine : Prop) (s s' : S) : Prop where
  inv : D.inv s'
  keeps : D.keeps s s'
  still : ¬ mine → D.still s s'
  locked : D.locked s → D.locked s'

/-- The parts of a discipline fit together. -/
structure Lawful (D : Discipline S L C) : Prop where
  keeps_refl : ∀ s, D.keeps s s
  keeps_trans : ∀ s t u, D.keeps s t → D.keeps t u → D.keeps s u
  still_refl : ∀ s, D.still s s
  still_trans : ∀ s t u, D.still s t → D.still t u → D.still s u
  acquire : ∀ l w s s', D.inv s → D.acquire l w s = some s' →
    D.inv s' ∧ D.keeps s s' ∧ D.still s s'
  acquire_main : ∀ s s', D.acquire D.main true s = some s' → ¬ D.locked s ∧ D.locked s'
  acquire_other : ∀ l w s s', l ≠ D.main → D.acquire l w s = some s' → D.locked s → D.locked s'
  free : ∀ l s, D.inv s → D.inv (D.free l s) ∧ D.keeps s (D.free l s) ∧ D.still s (D.free l s)
  free_other : ∀ l s, l ≠ D.main → D.locked s → D.locked (D.free l s)
  res : ∀ s s', D.res s → D.inv s' → D.keeps s s' → D.still s s' → D.res s'

variable {D : Discipline S L C} {mine : Prop} {s s' s'' : S}

theorem Env.refl (hD : D.Lawful) (h : D.inv s) : D.Env mine s s :=
  ⟨h, hD.keeps_refl s, fun _ => hD.still_refl s⟩

theorem Env.trans (hD : D.Lawful) (h : D.Env mine s s') (h' : D.Env mine s' s'') :
    D.Env mine s s'' :=
  ⟨h'.inv, hD.keeps_trans _ _ _ h.keeps h'.keeps,
    fun hm => hD.still_trans _ _ _ (h.still hm) (h'.still hm)⟩

theorem Env.mono {mine' : Prop} (hmine : mine' → mine) (h : D.Env mine s s') :
    D.Env mine' s s' :=
  ⟨h.inv, h.keeps, fun hm => h.still (hmine hm)⟩

theorem Env.of_acquire (hD : D.Lawful) {l : L} {w : Bool} (h : D.inv s)
    (hacq : D.acquire l w s = some s') : D.Env mine s s' :=
  have hstep := hD.acquire l w s s' h hacq
  ⟨hstep.1, hstep.2.1, fun _ => hstep.2.2⟩

theorem Env.of_free (hD : D.Lawful) {l : L} (h : D.inv s) : D.Env mine s (D.free l s) :=
  have hstep := hD.free l s h
  ⟨hstep.1, hstep.2.1, fun _ => hstep.2.2⟩

/-- What holds while nobody holds `main` survives the steps of those that do not. -/
theorem Env.res (hD : D.Lawful) (h : D.Env True s s') (hres : D.res s) : D.res s' :=
  hD.res s s' hres h.inv h.keeps (h.still trivial)

end Discipline

section Wp

variable [DecidableEq L] (D : Discipline S L C)

/-- `p`, a part of the call `c` begun in `s` by a thread that holds `h`, acquires locks in
the order of their ranks, keeps to the discipline, and returns only where `Q` holds. -/
def Wp (c : Option C) (h : List L) (s : S) : Prog S L C α → (α → List L → S → Prop) → Prop
  | .ret a, Q => Q a h s
  | .lock l w p, Q =>
    (∀ x ∈ h, D.rank x < D.rank l) ∧ (l = D.main → w = true) ∧
      ∀ s₁, D.Env (D.main ∈ h) s s₁ → D.promise c l s₁ → ∀ s₂, D.acquire l w s₁ = some s₂ →
        (l = D.main → D.res s₂) → Wp c (l :: h) s₂ p Q
  | .unlock l p, Q =>
    l ∈ h ∧ ∀ s₁, D.Env (D.main ∈ h) s s₁ →
      (l = D.main → D.res s₁) ∧ Wp c (h.erase l) (D.free l s₁) p Q
  | .access upd p, Q =>
    ∀ s₁, D.Env (D.main ∈ h) s s₁ → D.Allowed (D.main ∈ h) s₁ (upd s₁) ∧ Wp c h (upd s₁) (p s₁) Q
  | .jump _, _ => h = []
  | .stop, _ => True

end Wp

namespace Wp

variable [DecidableEq L] {D : Discipline S L C} {c : Option C} {h : List L} {s s' : S}
  {p : Prog S L C α} {Q Q' : α → List L → S → Prop} {l : L}

/-- What holds of a program still holds after steps of others. -/
theorem env (hD : D.Lawful) (hQ : ∀ a h s s', Q a h s → D.Env (D.main ∈ h) s s' → Q a h s')
    (henv : D.Env (D.main ∈ h) s s') (hp : Wp D c h s p Q) : Wp D c h s' p Q := by
  cases p with
  | ret a => exact hQ a h s s' hp henv
  | lock l w p => exact ⟨hp.1, hp.2.1, fun s₁ h₁ => hp.2.2 s₁ (henv.trans hD h₁)⟩
  | unlock l p => exact ⟨hp.1, fun s₁ h₁ => hp.2 s₁ (henv.trans hD h₁)⟩
  | access upd p => exact fun s₁ h₁ => hp s₁ (henv.trans hD h₁)
  | jump c => exact hp
  | stop => trivial

theorem mono (hQ : ∀ a h s, Q a h s → Q' a h s) (hp : Wp D c h s p Q) : Wp D c h s p Q' := by
  induction p generalizing h s with
  | ret a => exact hQ a h s hp
  | lock l w p ih =>
    exact ⟨hp.1, hp.2.1, fun s₁ h₁ hl s₂ h₂ hres => ih (hp.2.2 s₁ h₁ hl s₂ h₂ hres)⟩
  | unlock l p ih => exact ⟨hp.1, fun s₁ h₁ => ⟨(hp.2 s₁ h₁).1, ih (hp.2 s₁ h₁).2⟩⟩
  | access upd p ih => exact fun s₁ h₁ => ⟨(hp s₁ h₁).1, ih s₁ (hp s₁ h₁).2⟩
  | jump c => exact hp
  | stop => trivial

theorem bind {f : α → Prog S L C β} {Q : β → List L → S → Prop}
    (hp : Wp D c h s p fun a h s => Wp D c h s (f a) Q) : Wp D c h s (p >>= f) Q := by
  change Wp D c h s (p.bind f) Q
  induction p generalizing h s with
  | ret a => exact hp
  | lock l w p ih =>
    exact ⟨hp.1, hp.2.1, fun s₁ h₁ hl s₂ h₂ hres => ih (hp.2.2 s₁ h₁ hl s₂ h₂ hres)⟩
  | unlock l p ih => exact ⟨hp.1, fun s₁ h₁ => ⟨(hp.2 s₁ h₁).1, ih (hp.2 s₁ h₁).2⟩⟩
  | access upd p ih => exact fun s₁ h₁ => ⟨(hp s₁ h₁).1, ih s₁ (hp s₁ h₁).2⟩
  | jump c => exact hp
  | stop => trivial

theorem pure {a : α} (hq : Q a h s) : Wp D c h s (pure a) Q := hq

/-- Take a lock other than `main`. -/
theorem lock (hD : D.Lawful) {w : Bool} {p : Prog S L C α} (hmain : l ≠ D.main)
    (hrank : ∀ x ∈ h, D.rank x < D.rank l)
    (hp : ∀ s', D.Env (D.main ∈ h) s s' → (∃ s₁, D.promise c l s₁ ∧ D.Env (D.main ∈ h) s₁ s') →
      Wp D c (l :: h) s' p Q) :
    Wp D c h s (.lock l w p) Q :=
  ⟨hrank, fun heq => absurd heq hmain, fun s₁ h₁ hl s₂ h₂ _ =>
    hp s₂ (h₁.trans hD (.of_acquire hD h₁.inv h₂)) ⟨s₁, hl, .of_acquire hD h₁.inv h₂⟩⟩

/-- Take `main`. -/
theorem lock_main (hD : D.Lawful) {p : Prog S L C α} (hrank : ∀ x ∈ h, D.rank x < D.rank D.main)
    (hp : ∀ s', D.Env False s s' → D.res s' → Wp D c (D.main :: h) s' p Q) :
    Wp D c h s (.lock D.main true p) Q :=
  ⟨hrank, fun _ => rfl, fun _ h₁ _ s₂ h₂ hres =>
    hp s₂ ((h₁.mono False.elim).trans hD (.of_acquire hD h₁.inv h₂)) (hres rfl)⟩

/-- Release a lock other than `main`. -/
theorem unlock (hD : D.Lawful) {p : Prog S L C α} (hmain : l ≠ D.main) (hl : l ∈ h)
    (hp : ∀ s', D.Env (D.main ∈ h) s s' → Wp D c (h.erase l) s' p Q) :
    Wp D c h s (.unlock l p) Q :=
  ⟨hl, fun _ h₁ => ⟨fun heq => absurd heq hmain, hp _ (h₁.trans hD (.of_free hD h₁.inv))⟩⟩

/-- Release `main`. -/
theorem unlock_main (hD : D.Lawful) {p : Prog S L C α} (hl : D.main ∈ h)
    (hres : ∀ s', D.Env True s s' → D.res s')
    (hp : ∀ s', D.Env False s s' → Wp D c (h.erase D.main) s' p Q) :
    Wp D c h s (.unlock D.main p) Q :=
  ⟨hl, fun s₁ h₁ => ⟨fun _ => hres s₁ (h₁.mono fun _ => hl),
    hp _ ((h₁.mono False.elim).trans hD (.of_free hD h₁.inv))⟩⟩

theorem read (hD : D.Lawful) {f : S → α}
    (hq : ∀ s', D.Env (D.main ∈ h) s s' → Q (f s') h s') : Wp D c h s (.read f) Q :=
  fun s₁ h₁ => ⟨⟨h₁.inv, hD.keeps_refl s₁, fun _ => hD.still_refl s₁, id⟩, hq s₁ h₁⟩

theorem update {f : S → α × S} (hq : ∀ s', D.Env (D.main ∈ h) s s' →
    D.Allowed (D.main ∈ h) s' (f s').2 ∧ Q (f s').1 h (f s').2) : Wp D c h s (.update f) Q := hq

theorem modify {f : S → S} {Q : PUnit → List L → S → Prop}
    (hq : ∀ s', D.Env (D.main ∈ h) s s' → D.Allowed (D.main ∈ h) s' (f s') ∧ Q ⟨⟩ h (f s')) :
    Wp D c h s (.modify f) Q := hq

end Wp

/-! ### All threads -/

/-- The postcondition of a call: it gave back every lock. -/
def NoLocks (_ : R) (h : List L) (_ : S) : Prop := h = []

/-- Every thread keeps to the discipline. -/
structure Good [DecidableEq L] (D : Discipline S L C) (σ : Sys S L C R T) : Prop where
  inv : D.inv σ.shared
  threads : ∀ t, Wp D (σ.thread t).call (σ.thread t).held σ.shared (σ.thread t).prog NoLocks
  nodup : ∀ t, (σ.thread t).held.Nodup
  unique : ∀ t u, D.main ∈ (σ.thread t).held → D.main ∈ (σ.thread u).held → t = u
  locked : ∀ t, D.main ∈ (σ.thread t).held → D.locked σ.shared
  res : (∀ t, D.main ∉ (σ.thread t).held) → D.res σ.shared

namespace Good

variable [DecidableEq L] {D : Discipline S L C} {σ τ : Sys S L C R T}

theorem ranked (h : Good D σ) (t : T) : (σ.thread t).Ranked D.rank := by
  intro l w hl
  have hwp := h.threads t
  cases hprog : (σ.thread t).prog with
  | lock l' w' p =>
    rw [hprog] at hl hwp
    obtain ⟨rfl, rfl⟩ := Prod.mk.inj (Option.some_inj.mp hl)
    exact hwp.1
  | _ =>
    rw [hprog] at hl
    cases hl

theorem returned (h : Good D σ) (t : T) (hret : (σ.thread t).prog.Returned) :
    (σ.thread t).held = [] := by
  have hwp := h.threads t
  cases hprog : (σ.thread t).prog with
  | ret a =>
    rw [hprog] at hwp
    exact hwp
  | _ =>
    rw [hprog] at hret
    exact hret.elim

/-- One thread moved to `th` and the state to `s'`. -/
structure Moved (D : Discipline S L C) (σ : Sys S L C R T) (t : T) (th : Thread S L C R)
    (s' : S) : Prop where
  inv : D.inv s'
  wp : Wp D th.call th.held s' th.prog NoLocks
  nodup : th.held.Nodup
  /-- What the other threads see. -/
  env : ∀ u ≠ t, D.Env (D.main ∈ (σ.thread u).held) σ.shared s'
  /-- Nobody else holds `main` if this thread does. -/
  alone : D.main ∈ th.held → ∀ u ≠ t, D.main ∉ (σ.thread u).held
  locked : D.main ∈ th.held → D.locked s'
  others : ∀ u ≠ t, D.main ∈ (σ.thread u).held → D.locked s'
  res : D.main ∉ th.held → (∀ u ≠ t, D.main ∉ (σ.thread u).held) → D.res s'

variable [DecidableEq T] {t : T} {th : Thread S L C R} {s' : S}

/-- The threads that did not move keep to the discipline. -/
theorem Moved.good (hD : D.Lawful) (h : Good D σ) (hm : Moved D σ t th s') :
    Good D ⟨s', Function.update σ.thread t th⟩ := by
  have hself : Function.update σ.thread t th t = th := Function.update_self t th σ.thread
  have hother : ∀ u ≠ t, Function.update σ.thread t th u = σ.thread u := fun u hu =>
    Function.update_of_ne hu th σ.thread
  constructor
  · exact hm.inv
  · intro u
    by_cases hu : u = t
    · subst hu
      dsimp only
      rw [hself]
      exact hm.wp
    · dsimp only
      rw [hother u hu]
      exact (h.threads u).env hD (fun _ _ _ _ hnone _ => hnone) (hm.env u hu)
  · intro u
    by_cases hu : u = t
    · subst hu
      dsimp only
      rw [hself]
      exact hm.nodup
    · dsimp only
      rw [hother u hu]
      exact h.nodup u
  · intro u v hmu hmv
    dsimp only at hmu hmv
    by_cases hu : u = t
    · subst hu
      by_cases hv : v = u
      · exact hv.symm
      · rw [hself] at hmu
        rw [hother v hv] at hmv
        exact absurd hmv (hm.alone hmu v hv)
    · rw [hother u hu] at hmu
      by_cases hv : v = t
      · subst hv
        rw [hself] at hmv
        exact absurd hmu (hm.alone hmv u hu)
      · rw [hother v hv] at hmv
        exact h.unique u v hmu hmv
  · intro u hmu
    dsimp only at hmu
    by_cases hu : u = t
    · subst hu
      rw [hself] at hmu
      exact hm.locked hmu
    · rw [hother u hu] at hmu
      exact hm.others u hu hmu
  · intro hnone
    dsimp only at hnone
    refine hm.res ?_ fun u hu => ?_
    · have ht := hnone t
      rwa [hself] at ht
    · have hu' := hnone u
      rwa [hother u hu] at hu'

/-- The thread goes on as another program, or begins one, with the locks it holds. -/
theorem moved_same (hD : D.Lawful) (h : Good D σ) (hheld : th.held = (σ.thread t).held)
    (hwp : Wp D th.call th.held σ.shared th.prog NoLocks) : Moved D σ t th σ.shared where
  inv := h.inv
  wp := hwp
  nodup := hheld ▸ h.nodup t
  env _ _ := .refl hD h.inv
  alone hmain u hu hmu := hu (h.unique u t hmu (hheld ▸ hmain))
  locked hmain := h.locked t (hheld ▸ hmain)
  others u _ hmu := h.locked u hmu
  res hmain hnone := h.res fun u => by
    by_cases hu : u = t
    · rw [hu, ← hheld]
      exact hmain
    · exact hnone u hu

theorem moved_lock (hD : D.Lawful) (h : Good D σ) {l : L} {w : Bool} {p : Prog S L C R}
    (hprog : (σ.thread t).prog = .lock l w p) (hpromise : D.promise (σ.thread t).call l σ.shared)
    (hacq : D.acquire l w σ.shared = some s') :
    Moved D σ t { σ.thread t with prog := p, held := l :: (σ.thread t).held } s' := by
  have hwp := h.threads t
  rw [hprog] at hwp
  obtain ⟨hrank, hwrite, hwp⟩ := hwp
  have hnew : l ∉ (σ.thread t).held := fun hl => absurd (hrank l hl) (lt_irrefl _)
  have hinv := (hD.acquire l w _ _ h.inv hacq).1
  -- whoever gets `main` finds it free
  have hfree : l = D.main → (∀ u, D.main ∉ (σ.thread u).held) ∧ D.locked s' := by
    rintro rfl
    obtain rfl := hwrite rfl
    obtain ⟨hunlocked, hlocked⟩ := hD.acquire_main _ _ hacq
    exact ⟨fun u hu => hunlocked (h.locked u hu), hlocked⟩
  have hres : (∀ u, D.main ∉ (σ.thread u).held) → D.res s' := fun hnone =>
    Discipline.Env.res hD (.of_acquire hD h.inv hacq) (h.res hnone)
  have hkeep : ∀ u, D.main ∈ (σ.thread u).held → D.locked s' := fun u hu =>
    hD.acquire_other l w _ _ (fun heq => (hfree heq).1 u hu) hacq (h.locked u hu)
  refine ⟨hinv, hwp _ (.refl hD h.inv) hpromise s' hacq fun heq => hres (hfree heq).1,
    List.nodup_cons.mpr ⟨hnew, h.nodup t⟩, fun u _ => .of_acquire hD h.inv hacq, ?_, ?_,
    fun u _ => hkeep u, ?_⟩
  · intro hmain u hu hmu
    rcases List.mem_cons.mp hmain with heq | hmain
    · exact (hfree heq.symm).1 u hmu
    · exact hu (h.unique u t hmu hmain)
  · intro hmain
    rcases List.mem_cons.mp hmain with heq | hmain
    · exact (hfree heq.symm).2
    · exact hkeep t hmain
  · intro hmain hnone
    refine hres fun u => ?_
    by_cases hu : u = t
    · rw [hu]
      exact fun hmt => hmain (List.mem_cons_of_mem l hmt)
    · exact hnone u hu

theorem moved_unlock (hD : D.Lawful) (h : Good D σ) {l : L} {p : Prog S L C R}
    (hprog : (σ.thread t).prog = .unlock l p) :
    Moved D σ t { σ.thread t with prog := p, held := (σ.thread t).held.erase l }
      (D.free l σ.shared) := by
  have hwp := h.threads t
  rw [hprog] at hwp
  obtain ⟨hl, hwp⟩ := hwp
  obtain ⟨hback, hwp⟩ := hwp _ (.refl hD h.inv)
  have henv : ∀ mine, D.Env mine σ.shared (D.free l σ.shared) := fun _ => .of_free hD h.inv
  have hkept : ∀ u, D.main ∈ (σ.thread u).held → l ≠ D.main → D.locked (D.free l σ.shared) :=
    fun u hmu hne => hD.free_other l _ hne (h.locked u hmu)
  refine ⟨(hD.free l _ h.inv).1, hwp, (h.nodup t).erase l, fun _ _ => henv _, ?_, ?_, ?_, ?_⟩
  · exact fun hmain u hu hmu => hu (h.unique u t hmu (List.mem_of_mem_erase hmain))
  · intro hmain
    refine hkept t (List.mem_of_mem_erase hmain) ?_
    rintro rfl
    exact (h.nodup t).not_mem_erase hmain
  · intro u hu hmu
    refine hkept u hmu ?_
    rintro rfl
    exact hu (h.unique u t hmu hl)
  · intro hmain hnone
    by_cases heq : l = D.main
    · exact Discipline.Env.res hD (henv True) (hback heq)
    · refine Discipline.Env.res hD (henv True) (h.res fun u => ?_)
      by_cases hu : u = t
      · rw [hu]
        exact fun hmt => hmain ((List.mem_erase_of_ne (Ne.symm heq)).mpr hmt)
      · exact hnone u hu

theorem moved_access (hD : D.Lawful) (h : Good D σ) {upd : S → S} {p : S → Prog S L C R}
    (hprog : (σ.thread t).prog = .access upd p) :
    Moved D σ t { σ.thread t with prog := p σ.shared } (upd σ.shared) := by
  have hwp := h.threads t
  rw [hprog] at hwp
  obtain ⟨hallowed, hwp⟩ := hwp _ (.refl hD h.inv)
  refine ⟨hallowed.inv, hwp, h.nodup t, fun u hu => ⟨hallowed.inv, hallowed.keeps, fun hmu => ?_⟩,
    fun hmain u hu hmu => hu (h.unique u t hmu hmain),
    fun hmain => hallowed.locked (h.locked t hmain), fun u _ hmu => hallowed.locked (h.locked u hmu),
    fun hmain hnone => ?_⟩
  · exact hallowed.still fun hmain => hu (h.unique u t hmu hmain)
  · refine hD.res _ _ (h.res fun u => ?_) hallowed.inv hallowed.keeps (hallowed.still hmain)
    by_cases hu : u = t
    · rw [hu]
      exact hmain
    · exact hnone u hu

/-- When every call is correct, every step keeps every thread correct. -/
theorem next (hD : D.Lawful) {start : C → Prog S L C R}
    (hstart : ∀ c s, D.inv s → Wp D (some c) [] s (start c) NoLocks) (h : Good D σ)
    {e : T × Option C} (hpromise : σ.Promised D.promise e)
    (hnext : σ.next D.toLocks start e = some τ) : Good D τ := by
  obtain ⟨t, _ | c⟩ := e
  · obtain ⟨⟨th, s'⟩, hstep, rfl⟩ := Option.map_eq_some_iff.mp hnext
    refine Moved.good hD h ?_
    change (σ.thread t).step D.toLocks start σ.shared = some (th, s') at hstep
    have hwants := hpromise rfl
    have hwp := h.threads t
    unfold Thread.step at hstep
    cases hprog : (σ.thread t).prog with
    | ret a =>
      rw [hprog] at hstep
      cases hstep
    | lock l w p =>
      rw [hprog] at hstep hwants
      obtain ⟨s'', hacq, heq⟩ := Option.map_eq_some_iff.mp hstep
      obtain ⟨rfl, rfl⟩ := Prod.mk.inj heq
      exact h.moved_lock hD hprog (hwants l w rfl) hacq
    | unlock l p =>
      rw [hprog] at hstep
      obtain ⟨rfl, rfl⟩ := Prod.mk.inj (Option.some_inj.mp hstep)
      exact h.moved_unlock hD hprog
    | access upd p =>
      rw [hprog] at hstep
      obtain ⟨rfl, rfl⟩ := Prod.mk.inj (Option.some_inj.mp hstep)
      exact h.moved_access hD hprog
    | jump c =>
      rw [hprog] at hstep hwp
      obtain ⟨rfl, rfl⟩ := Prod.mk.inj (Option.some_inj.mp hstep)
      have hnone : (σ.thread t).held = [] := hwp
      refine h.moved_same hD rfl ?_
      dsimp only
      rw [hnone]
      exact hstart c _ h.inv
    | stop =>
      rw [hprog] at hstep
      cases hstep
  · obtain ⟨⟨th, s'⟩, henter, rfl⟩ := Option.map_eq_some_iff.mp hnext
    refine Moved.good hD h ?_
    change (σ.thread t).enter start c σ.shared = some (th, s') at henter
    unfold Thread.enter at henter
    split at henter
    · rename_i a hret
      obtain ⟨rfl, rfl⟩ := Prod.mk.inj (Option.some_inj.mp henter)
      refine h.moved_same hD rfl ?_
      dsimp only
      rw [h.returned t (by rw [hret]; trivial)]
      exact hstart c _ h.inv
    · cases henter

end Good

end TfsBroker.Programs
