import Mathlib.Data.List.Basic

/-!
# Runs of a deterministic machine

A machine steps from state to state on events. A run is the state after a list of events, and a
property holds along a run if it holds of every step in it.
-/
namespace Vibesys.Library

variable {σ ε : Type*} (step : σ → ε → σ)

def run (s : σ) (es : List ε) : σ := es.foldl step s

@[simp] theorem run_nil (s : σ) : run step s [] = s := rfl

@[simp] theorem run_cons (s : σ) (e : ε) (es : List ε) : run step s (e :: es) = run step (step s e) es := rfl

theorem run_append (s : σ) (es es' : List ε) : run step s (es ++ es') = run step (run step s es) es' :=
  List.foldl_append ..

/-- `P` holds of every step of the run: of the state before it and its event. -/
def Along (P : σ → ε → Prop) : σ → List ε → Prop
  | _,[] => True
  | s,e :: es => P s e ∧ Along P (step s e) es

instance Along.decidable (P : σ → ε → Prop) [∀ s e, Decidable (P s e)] :
    (s : σ) → (es : List ε) → Decidable (Along step P s es)
  | _,[] => inferInstanceAs (Decidable True)
  | s,e :: es =>
    have := Along.decidable P (step s e) es
    inferInstanceAs (Decidable (P s e ∧ Along step P (step s e) es))

variable {step}

theorem Along.imp {P Q : σ → ε → Prop} (h : ∀ s e, P s e → Q s e) {s : σ} {es : List ε} (hP : Along step P s es) :
    Along step Q s es := by
  induction es generalizing s with
  | nil => trivial
  | cons e es ih => exact ⟨h s e hP.1,ih hP.2⟩

theorem Along.and {P Q : σ → ε → Prop} {s : σ} {es : List ε} (hP : Along step P s es) (hQ : Along step Q s es) :
    Along step (fun s e => P s e ∧ Q s e) s es := by
  induction es generalizing s with
  | nil => trivial
  | cons e es ih => exact ⟨⟨hP.1,hQ.1⟩,ih hP.2 hQ.2⟩

theorem Along.of_append {P : σ → ε → Prop} {s : σ} {es es' : List ε} (h : Along step P s (es ++ es')) :
    Along step P s es := by
  induction es generalizing s with
  | nil => trivial
  | cons e es ih => exact ⟨h.1,ih h.2⟩

theorem Along.right {P : σ → ε → Prop} {s : σ} {es es' : List ε} (h : Along step P s (es ++ es')) :
    Along step P (run step s es) es' := by
  induction es generalizing s with
  | nil => exact h
  | cons e es ih => exact ih h.2

theorem along_of_mem {P : ε → Prop} {es : List ε} (h : ∀ e ∈ es, P e) (s : σ) : Along step (fun _ e => P e) s es := by
  induction es generalizing s with
  | nil => trivial
  | cons e es ih => exact ⟨h e List.mem_cons_self,ih (fun e' he => h e' (List.mem_cons_of_mem _ he)) _⟩

theorem along_of_forall {P : σ → ε → Prop} (h : ∀ s e, P s e) (s : σ) (es : List ε) : Along step P s es := by
  induction es generalizing s with
  | nil => trivial
  | cons e es ih => exact ⟨h s e,ih _⟩

/-- The rule for runs: an invariant that every step meeting the condition keeps, holds at the end of
a run along which the condition holds. -/
theorem Along.invariant {I : σ → Prop} {C : σ → ε → Prop} (hstep : ∀ s e, I s → C s e → I (step s e))
    {s : σ} {es : List ε} (hs : I s) (hC : Along step C s es) : I (run step s es) := by
  induction es generalizing s with
  | nil => exact hs
  | cons e es ih => exact ih (hstep s e hs hC.1) hC.2

/-- What the invariant gives of each step, holds along the run. -/
theorem Along.ensures {I : σ → Prop} {C P : σ → ε → Prop} (hstep : ∀ s e, I s → C s e → I (step s e) ∧ P s e)
    {s : σ} {es : List ε} (hs : I s) (hC : Along step C s es) : Along step P s es := by
  induction es generalizing s with
  | nil => trivial
  | cons e es ih =>
    obtain ⟨hnext,hP⟩ := hstep s e hs hC.1
    exact ⟨hP,ih hnext hC.2⟩

theorem run_invariant {I : σ → Prop} (hstep : ∀ s e, I s → I (step s e)) {s : σ} (hs : I s) (es : List ε) :
    I (run step s es) :=
  Along.invariant (C := fun _ _ => True) (fun s e h _ => hstep s e h) hs (along_of_forall (fun _ _ => trivial) s es)

/-- What a step keeps unless it is of the kind `E`, is still there at the end or there was such a step. -/
theorem Along.until {P : σ → Prop} {C E : σ → ε → Prop} (hstep : ∀ s e, C s e → P s → P (step s e) ∨ E s e)
    {s : σ} {es : List ε} (hP : P s) (hC : Along step C s es) :
    P (run step s es) ∨ ∃ mid e rest, es = mid ++ e :: rest ∧ E (run step s mid) e := by
  induction es generalizing s with
  | nil => exact Or.inl hP
  | cons e es ih =>
    rcases hstep s e hC.1 hP with hnext | hE
    · rcases ih hnext hC.2 with hend | ⟨mid,e',rest,rfl,hE⟩
      · exact Or.inl hend
      · exact Or.inr ⟨e :: mid,e',rest,rfl,hE⟩
    · exact Or.inr ⟨[],e,es,rfl,hE⟩

/-!
## Machines that answer

A machine that answers each event is simulated by another one if related states answer alike and stay related. Then
they answer alike over whole runs.
-/

variable {τ ρ : Type*}

/-- The answers to a list of events. -/
def answers (answer : σ → ε → ρ × σ) : σ → List ε → List ρ
  | _,[] => []
  | s,e :: es => (answer s e).1 :: answers answer (answer s e).2 es

/-- The rule for simulation, with what each step of the simulating machine keeps to. -/
theorem Along.simulates {answer : σ → ε → ρ × σ} {answer' : τ → ε → ρ × τ} {R : σ → τ → Prop} {C : σ → ε → Prop}
    {P : τ → ε → Prop}
    (hstep : ∀ s t e, R s t → C s e → (answer s e).1 = (answer' t e).1 ∧ R (answer s e).2 (answer' t e).2 ∧ P t e)
    {s : σ} {t : τ} {es : List ε} (hs : R s t) (hC : Along (fun s e => (answer s e).2) C s es) :
    answers answer s es = answers answer' t es ∧
      R (run (fun s e => (answer s e).2) s es) (run (fun t e => (answer' t e).2) t es) ∧
      Along (fun t e => (answer' t e).2) P t es := by
  induction es generalizing s t with
  | nil => exact ⟨rfl,hs,trivial⟩
  | cons e es ih =>
    obtain ⟨hreply,hnext,hP⟩ := hstep s t e hs hC.1
    obtain ⟨hreplies,hend,hrest⟩ := ih hnext hC.2
    refine ⟨?_,hend,hP,hrest⟩
    show (answer s e).1 :: _ = (answer' t e).1 :: _
    rw [hreply,hreplies]

/-!
## Calls that may fail
-/

theorem bind_ok {α β ε : Type} {x : Except ε α} {f : α → Except ε β} {b : β} (h : (x >>= f) = .ok b) :
    ∃ a, x = .ok a ∧ f a = .ok b := by
  cases x with
  | error e => cases h
  | ok a => exact ⟨a,rfl,h⟩

end Vibesys.Library
