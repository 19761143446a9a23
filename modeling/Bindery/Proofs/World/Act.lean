import Mathlib
import Bindery.Compiler

/-!
# Runs of actions

An action run in a world gives its result and the world it leaves. Two kinds of facts about runs
are built up along the structure of an action: how the world that is left relates to the one
before, and that two worlds which look alike lead to the same result.
-/
namespace Bindery.Act
variable {α β γ : Type}

/-- The result of an action in a world, and the world it leaves. -/
def runOn (m : Act α) (w : World) : Except Failure α × World := (ExceptT.run m).run w

section Equations
variable {m : Act α} {f : α → Act β} {u v w : World} {a : α} {b : β} {e : Failure}

@[simp] theorem runOn_pure : (pure a : Act α).runOn w = (.ok a, w) := rfl

@[simp] theorem runOn_throw : (throw e : Act α).runOn w = (.error e, w) := rfl

@[simp] theorem runOn_get : (get : Act World).runOn w = (.ok w, w) := rfl

@[simp] theorem runOn_set : (set v : Act PUnit).runOn w = (.ok ⟨⟩, v) := rfl

@[simp] theorem runOn_modify (g : World → World) :
    (modify g : Act PUnit).runOn w = (.ok ⟨⟩, g w) := rfl

theorem runOn_bind_of_ok (h : m.runOn w = (.ok a, v)) : (m >>= f).runOn w = (f a).runOn v := by
  change StateT.run (ExceptT.run m) w = (.ok a, v) at h
  change StateT.run (ExceptT.run (m >>= f)) w = _
  rw [ExceptT.run_bind, StateT.run_bind, h]
  rfl

theorem runOn_bind_of_error (h : m.runOn w = (.error e, v)) :
    (m >>= f).runOn w = (.error e, v) := by
  change StateT.run (ExceptT.run m) w = (.error e, v) at h
  change StateT.run (ExceptT.run (m >>= f)) w = _
  rw [ExceptT.run_bind, StateT.run_bind, h]
  rfl

@[simp] theorem runOn_pure_bind : ((pure a : Act α) >>= f).runOn w = (f a).runOn w := rfl

@[simp] theorem runOn_get_bind (f : World → Act β) :
    ((get : Act World) >>= f).runOn w = (f w).runOn w := rfl

@[simp] theorem runOn_set_bind (f : PUnit → Act β) :
    ((set v : Act PUnit) >>= f).runOn w = (f ⟨⟩).runOn v := rfl

@[simp] theorem runOn_modify_bind (g : World → World) (f : PUnit → Act β) :
    ((modify g : Act PUnit) >>= f).runOn w = (f ⟨⟩).runOn (g w) := rfl

@[simp] theorem runOn_throw_bind : ((throw e : Act α) >>= f).runOn w = (.error e, w) := rfl

theorem bind_ok :
    (m >>= f).runOn w = (.ok b, v) ↔
      ∃ a u, m.runOn w = (.ok a, u) ∧ (f a).runOn u = (.ok b, v) := by
  cases hm : m.runOn w with
  | mk result u =>
    cases result with
    | error e =>
      rw [runOn_bind_of_error hm]
      simp
    | ok a =>
      rw [runOn_bind_of_ok hm]
      constructor
      · exact fun h => ⟨a, u, rfl, h⟩
      · rintro ⟨a', u', h, h'⟩
        cases h
        exact h'

theorem bind_error :
    (m >>= f).runOn w = (.error e, v) ↔ m.runOn w = (.error e, v) ∨
      ∃ a u, m.runOn w = (.ok a, u) ∧ (f a).runOn u = (.error e, v) := by
  cases hm : m.runOn w with
  | mk result u =>
    cases result with
    | error e' =>
      rw [runOn_bind_of_error hm]
      simp
    | ok a =>
      rw [runOn_bind_of_ok hm]
      constructor
      · exact fun h => .inr ⟨a, u, rfl, h⟩
      · rintro (h | ⟨a', u', h, h'⟩)
        · cases h
        · cases h
          exact h'

theorem runOn_ofExcept (r : Except Failure α) : (ofExcept r).runOn w = (r, w) := by
  cases r <;> rfl

theorem ofExcept_ok {r : Except Failure α} :
    (ofExcept r).runOn w = (.ok a, v) ↔ r = .ok a ∧ v = w := by
  rw [runOn_ofExcept, Prod.mk.injEq, eq_comm (a := w)]

theorem orBuild_ok {r : Except BuildFault α} :
    (orBuild r).runOn w = (.ok a, v) ↔ r = .ok a ∧ v = w := by
  rw [orBuild, ofExcept_ok]
  cases r <;> simp [Except.mapError]

theorem runOn_note (n : Note) :
    (note n).runOn w = (.ok ⟨⟩, { w with log := w.log ++ w.logger.record n }) := rfl

theorem runOn_debug (t : String) :
    (debug t).runOn w = (.ok ⟨⟩, { w with log := w.log ++ w.logger.record ⟨.debug, t⟩ }) := rfl

theorem runOn_info (t : String) :
    (info t).runOn w = (.ok ⟨⟩, { w with log := w.log ++ w.logger.record ⟨.info, t⟩ }) := rfl

theorem runOn_direct (line : String) :
    (direct line).runOn w = (.ok ⟨⟩, { w with directives := w.directives ++ line ++ "\n" }) := rfl

theorem runOn_compile (c : Compiler) (call : CompilerCall) :
    (compile c call).runOn w =
      (.ok ((c.run call).run { w with calls := w.calls ++ [call] }).1,
        ((c.run call).run { w with calls := w.calls ++ [call] }).2) := rfl

theorem runOn_read (p : Path) (fault : FileFault) :
    (read p fault).runOn w =
      ((w.read? p).elim (.error (.file fault)) .ok, w) := by
  simp only [read, runOn_get_bind]
  cases w.read? p <;> rfl

theorem runOn_list (p : Path) :
    (list p).runOn w = ((w.list? p).elim (.error .fileSystem) .ok, w) := by
  simp only [list, runOn_get_bind]
  cases w.list? p <;> rfl

theorem mapM_nil_ok {bs : List β} :
    (([] : List α).mapM f).runOn w = (.ok bs, v) ↔ bs = [] ∧ v = w := by
  rw [List.mapM_nil, runOn_pure, Prod.mk.injEq, Except.ok.injEq, eq_comm, eq_comm (a := w)]

theorem mapM_cons_ok {a : α} {as : List α} {bs : List β} :
    ((a :: as).mapM f).runOn w = (.ok bs, v) ↔ ∃ b bs' u, bs = b :: bs' ∧
      (f a).runOn w = (.ok b, u) ∧ (as.mapM f).runOn u = (.ok bs', v) := by
  rw [List.mapM_cons, bind_ok]
  constructor
  · rintro ⟨b, u, hb, h⟩
    obtain ⟨bs', u', hbs, h⟩ := bind_ok.1 h
    cases h
    exact ⟨b, bs', u, rfl, hb, hbs⟩
  · rintro ⟨b, bs', u, rfl, hb, hbs⟩
    exact ⟨b, u, hb, bind_ok.2 ⟨bs', v, hbs, rfl⟩⟩

/-- Something that succeeds does so in some world. -/
theorem exists_of_toOption (h : (m.runOn w).1.toOption = some a) : ∃ v, m.runOn w = (.ok a, v) := by
  cases hm : m.runOn w with
  | mk result v =>
    rw [hm] at h
    cases result with
    | ok b =>
      cases h
      exact ⟨v, rfl⟩
    | error e => cases h

end Equations

/-- What an action returns, if it does, has the property `P`. -/
def Returns (m : Act α) (P : α → Prop) : Prop :=
  ∀ (w v : World) (a : α), m.runOn w = (.ok a, v) → P a

theorem Returns.pure {P : α → Prop} {a : α} (h : P a) : (pure a : Act α).Returns P := by
  intro w v b hb
  cases hb
  exact h

theorem Returns.bind {m : Act α} {f : α → Act β} {P : β → Prop} (h : ∀ a, (f a).Returns P) :
    (m >>= f).Returns P := by
  intro w v b hb
  obtain ⟨a, u, _, hf⟩ := bind_ok.1 hb
  exact h a u v b hf

/-- The relation `R` holds between every world and the one that the action leaves of it. -/
def Preserves (R : World → World → Prop) (m : Act α) : Prop := ∀ w, R w (m.runOn w).2

/-- A relation between worlds that logging does not break. -/
structure IsFrame (R : World → World → Prop) : Prop where
  refl : ∀ w, R w w
  trans : ∀ {u v w}, R u v → R v w → R u w
  log : ∀ (w : World) (log : String), R w { w with log }

namespace Preserves
variable {R : World → World → Prop} {m : Act α} {f : α → Act β}

theorem of_ok (h : m.Preserves R) {w v : World} {r : Except Failure α} (hm : m.runOn w = (r, v)) :
    R w v := by
  have := h w
  rwa [hm] at this

variable (hR : IsFrame R)
include hR

protected theorem pure (a : α) : (pure a : Act α).Preserves R := fun w => hR.refl w

protected theorem throw (e : Failure) : (throw e : Act α).Preserves R := fun w => hR.refl w

protected theorem get : (get : Act World).Preserves R := fun w => hR.refl w

protected theorem bind (hm : m.Preserves R) (hf : ∀ a, (f a).Preserves R) :
    (m >>= f).Preserves R := by
  intro w
  have h := hm w
  cases hr : m.runOn w with
  | mk result v =>
    rw [hr] at h
    cases result with
    | error e =>
      rw [runOn_bind_of_error hr]
      exact h
    | ok a =>
      rw [runOn_bind_of_ok hr]
      exact hR.trans h (hf a v)

theorem get_bind {f : World → Act β} (hf : ∀ v, (f v).Preserves R) :
    ((get : Act World) >>= f).Preserves R :=
  Preserves.bind hR (Preserves.get hR) hf

protected theorem note (n : Note) : (note n).Preserves R := fun w => hR.log w _

protected theorem ofExcept (r : Except Failure α) : (ofExcept r).Preserves R := by
  intro w
  rw [runOn_ofExcept]
  exact hR.refl w

protected theorem read (p : Path) (fault : FileFault) : (read p fault).Preserves R := by
  intro w
  rw [runOn_read]
  exact hR.refl w

protected theorem list (p : Path) : (list p).Preserves R := by
  intro w
  rw [runOn_list]
  exact hR.refl w

theorem forM {l : List γ} {g : γ → Act PUnit} (hg : ∀ x ∈ l, (g x).Preserves R) :
    (l.forM g).Preserves R := by
  induction l with
  | nil => exact Preserves.pure hR _
  | cons x l ih =>
    change (g x >>= fun _ => l.forM g).Preserves R
    refine Preserves.bind hR (hg x List.mem_cons_self) fun _ => ih fun y hy => ?_
    exact hg y (List.mem_cons_of_mem _ hy)

theorem mapM {l : List γ} {g : γ → Act β} (hg : ∀ x ∈ l, (g x).Preserves R) :
    (l.mapM g).Preserves R := by
  induction l with
  | nil => exact Preserves.pure hR _
  | cons x l ih =>
    rw [List.mapM_cons]
    refine Preserves.bind hR (hg x List.mem_cons_self) fun _ => ?_
    refine Preserves.bind hR (ih fun y hy => hg y (List.mem_cons_of_mem _ hy)) fun _ => ?_
    exact Preserves.pure hR _

end Preserves

/-- A relation between worlds that does not look at the log. -/
def IgnoresLog (R : World → World → Prop) : Prop :=
  ∀ (w v : World) (log log' : String), R w v → R { w with log } { v with log := log' }

end Bindery.Act
