import Mathlib.Logic.Function.Basic

/-! # Fibers

A fiber is its state, the function it is to run, and its context.  Of the context the
model keeps one bit, `saved`: whether `m_ctx` holds a complete context that can be
switched to.  `makecontext` makes one; switching to a fiber uses it up, and the
switch away (`swapOut`) writes it again. -/
namespace Sylar

abbrev FiberId := Nat
abbrev CallbackId := Nat

/-- `Fiber::State`. -/
inductive FiberState
  | INIT | HOLD | EXEC | TERM | READY | EXCEPT
  deriving DecidableEq, Repr

structure Fiber where
  state : FiberState
  cb : Option CallbackId
  saved : Bool
  deriving DecidableEq, Repr

/-- How the code of a fiber gives up its worker: `YieldToReady`, `YieldToHold`, the
end of `MainFunc`, or its `catch`. -/
inductive Yield
  | ready | hold | finish | throw
  deriving DecidableEq, Repr

/-- The state that is written before the switch. -/
def Yield.state : Yield → FiberState
  | ready => .READY
  | hold => .HOLD
  | finish => .TERM
  | throw => .EXCEPT

namespace Fiber

/-- `new Fiber( cb )`. -/
def new (cb : CallbackId) : Fiber := { state := .INIT, cb := some cb, saved := true }

/-- `reset( cb )`; `none` is the failed assertion on the state. -/
def reset (f : Fiber) (cb : Option CallbackId) : Option Fiber :=
  if f.state = .TERM ∨ f.state = .EXCEPT ∨ f.state = .INIT then
    some { state := .INIT, cb, saved := true }
  else none

/-- `swapIn()`; `none` is the failed assertion that the state is not `EXEC`. -/
def swapIn (f : Fiber) : Option Fiber :=
  if f.state ≠ .EXEC then some { f with state := .EXEC, saved := false } else none

def swapOut (f : Fiber) : Fiber := { f with saved := true }

/-- What the fiber writes before it switches away; `MainFunc` also clears `m_cb` when
the function returned. -/
def yield (f : Fiber) (how : Yield) : Fiber :=
  match how with
  | .finish => { f with state := how.state, cb := none }
  | _ => { f with state := how.state }

theorem yield_state (f : Fiber) (how : Yield) : (f.yield how).state = how.state := by
  cases how <;> rfl

theorem swapIn_state {f g : Fiber} (h : f.swapIn = some g) : g.state = .EXEC := by
  rw [swapIn] at h
  split at h
  · obtain rfl := Option.some.inj h
    rfl
  · cases h

theorem swapIn_cb {f g : Fiber} (h : f.swapIn = some g) : g.cb = f.cb := by
  rw [swapIn] at h
  split at h
  · obtain rfl := Option.some.inj h
    rfl
  · cases h

theorem reset_cb {f g : Fiber} {cb : Option CallbackId} (h : f.reset cb = some g) : g.cb = cb := by
  rw [reset] at h
  split at h
  · obtain rfl := Option.some.inj h
    rfl
  · cases h

/-- A fiber that was reset has a fresh context. -/
theorem reset_fresh {f g : Fiber} {cb : Option CallbackId} (h : f.reset cb = some g) :
    g.saved = true ∧ g.state = .INIT := by
  rw [reset] at h
  split at h
  · obtain rfl := Option.some.inj h
    exact ⟨rfl, rfl⟩
  · cases h

end Fiber

/-- What can be scheduled: a fiber or a callback. -/
inductive Task
  | fiber (f : FiberId)
  | callback (cb : CallbackId)
  deriving DecidableEq, Repr

end Sylar
