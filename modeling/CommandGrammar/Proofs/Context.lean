/-
Contexts. The handlers of a tree run in a monad of the application, and
the context of a command is whatever that monad holds. Matching a line
asks guards and fallbacks only, and those read the context without
changing it; so in a given context a walk has one answer, and the
theorems about walks speak of that answer.

A context therefore says which computations leave it as it is, and what
each of them answers; sequencing such computations sequences their
answers. Two monads are worked out: a plain argument, which every
computation leaves alone, and a state, of which computations may change
what nobody looks at, such as a log.
-/
namespace CommandGrammar

/-- What computations that only read answer in one context. -/
structure Context (m : Type → Type) [Monad m] where
  /-- Whether a computation leaves the context as it is. -/
  Reads : {β : Type} → m β → Prop
  /-- The answer of a computation that does. -/
  ask : {β : Type} → m β → β
  /-- An answer that is there already changes nothing. -/
  reads_pure : ∀ {β : Type} (b : β), Reads (pure b)
  /-- It is its own answer. -/
  ask_pure : ∀ {β : Type} (b : β), ask (pure b) = b
  /-- One reading after another is a reading. -/
  reads_bind : ∀ {β γ : Type} {x : m β} {f : β → m γ},
    Reads x → Reads (f (ask x)) → Reads (x >>= f)
  /-- The second one is asked what the first one's answer makes of it. -/
  ask_bind : ∀ {β γ : Type} {x : m β} {f : β → m γ},
    Reads x → Reads (f (ask x)) → ask (x >>= f) = ask (f (ask x))

namespace Context

theorem ask_bind_pure {m : Type → Type} [Monad m] (context : Context m) {β γ : Type} {x : m β}
    (h : context.Reads x) (f : β → γ) :
    context.ask (x >>= fun b => pure (f b)) = f (context.ask x) := by
  have hpure : context.Reads (pure (f (context.ask x))) := context.reads_pure _
  rw [context.ask_bind (f := fun b => pure (f b)) h hpure, context.ask_pure]

-- ============================================================ two monads

/-- The context that is an argument. -/
def reader {γ : Type} (c : γ) : Context (ReaderM γ) where
  Reads _ := True
  ask x := x c
  reads_pure _ := trivial
  ask_pure _ := rfl
  reads_bind _ _ := trivial
  ask_bind _ _ := rfl

/-- The context that is a state, known up to a property that readings
keep; what they answer is settled by the property. -/
def state {σ : Type} (Holds : σ → Prop) (start : σ) (holds : Holds start) :
    Context (StateM σ) where
  Reads x := ∀ s, Holds s → (x s).1 = (x start).1 ∧ Holds (x s).2
  ask x := (x start).1
  reads_pure _ _ hs := ⟨rfl, hs⟩
  ask_pure _ := rfl
  reads_bind {_ _ x f} hx hf s hs := by
    obtain ⟨hanswer, hkept⟩ := hx s hs
    obtain ⟨hstart, -⟩ := hf (x start).2 (hx start holds).2
    obtain ⟨hthen, hend⟩ := hf (x s).2 hkept
    show (f (x s).1 (x s).2).1 = (f (x start).1 (x start).2).1
      ∧ Holds (f (x s).1 (x s).2).2
    rw [hanswer]
    exact ⟨hthen.trans hstart.symm, hend⟩
  ask_bind {_ _ x _} hx hf := (hf (x start).2 (hx start holds).2).1

end Context

end CommandGrammar
