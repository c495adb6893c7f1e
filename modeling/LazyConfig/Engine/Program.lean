-- What a deferred computation may do to the store that runs it: define a binding, ask
-- whether one exists, and ask for a value. A program is the tree of all it may do, with a
-- branch for each answer, so it can do nothing else.
-- Main statement: programs form a lawful monad.
import LazyConfig.Engine.Error
import LazyConfig.Value.Basic

namespace LazyConfig

/-- A program that defines bindings with bodies in `T`, asks for values in contexts in `R`, and
ends with an `α`. -/
inductive Program (T R α : Type) where
  | done (result : α)
  | define (name : String) (body : T) (next : Except EvalError Unit → Program T R α)
  | contains (name : String) (next : Bool → Program T R α)
  | value (context : R) (name : String) (next : Except EvalError Value → Program T R α)

namespace Program

variable {T R α β γ : Type}

/-- Runs a program and goes on with its result. -/
def bind (f : α → Program T R β) : Program T R α → Program T R β
  | done result => f result
  | define name body next => define name body fun r => bind f (next r)
  | contains name next => contains name fun r => bind f (next r)
  | value context name next => value context name fun r => bind f (next r)

instance : Monad (Program T R) where
  pure := done
  bind p f := bind f p

theorem bind_eq (p : Program T R α) (f : α → Program T R β) : p >>= f = bind f p := rfl

theorem bind_done (p : Program T R α) : bind done p = p := by
  induction p with
  | done => rfl
  | define name body next ih => simp only [bind, ih]
  | contains name next ih => simp only [bind, ih]
  | value context name next ih => simp only [bind, ih]

theorem bind_bind (f : α → Program T R β) (g : β → Program T R γ) (p : Program T R α) :
    bind g (bind f p) = bind (fun a => bind g (f a)) p := by
  induction p with
  | done => rfl
  | define name body next ih => simp only [bind, ih]
  | contains name next ih => simp only [bind, ih]
  | value context name next ih => simp only [bind, ih]

instance : LawfulMonad (Program T R) :=
  LawfulMonad.mk' (Program T R) bind_done (fun _ _ => rfl) (fun p f g => bind_bind f g p)

end Program

end LazyConfig
