import Relayout.Failure.Cause

/-!
# Traces

Builds and applications report events. A computation that reports is a list of
events with a result, and the events before a failure stay. A sink holds the
newest events up to a limit.
-/

namespace Relayout

/-- What is reported while converters are built and applied. -/
inductive Event where
  | converterBuilt (dest source : Text)
  | buildFailed (dest source : Text) (reason : Reason) (message : Text)
  | fieldIgnored (path : List Text) (field : Text)
  | ctorSkipped (path : List Text) (ctor : Text)
  | unknownTag (dest : Text) (sourceTag : Nat)
  | cacheHit (dest source : Text)
  | cacheMiss (dest source : Text)
  deriving DecidableEq, Repr

/-! ## Reporting computations -/

/-- A computation that reports events and may fail. -/
structure Traced (α : Type) where
  events : List Event
  result : Except Failure α

namespace Traced

def pure {α : Type} (a : α) : Traced α :=
  ⟨[], .ok a⟩

def fail {α : Type} (f : Failure) : Traced α :=
  ⟨[], .error f⟩

def emit (e : Event) : Traced Unit :=
  ⟨[e], .ok ()⟩

def emitAll (es : List Event) : Traced Unit :=
  ⟨es, .ok ()⟩

/-- Go on with the value; a failure keeps what was reported before it. -/
def bind {α β : Type} (x : Traced α) (f : α → Traced β) : Traced β :=
  match x.result with
  | .ok a => ⟨x.events ++ (f a).events, (f a).result⟩
  | .error e => ⟨x.events, .error e⟩

instance : Monad Traced where
  pure := Traced.pure
  bind := Traced.bind

/-- A computation that reports nothing and fails by a cause. -/
def ofCause {α : Type} : Except Cause α → Traced α
  | .ok a => Traced.pure a
  | .error c => fail c.failure

def mapFailure {α : Type} (f : Failure → Failure) (x : Traced α) : Traced α :=
  ⟨x.events, x.result.mapError f⟩

def muted {α : Type} (x : Traced α) : Traced α :=
  ⟨[], x.result⟩

/-- A chain comes to a value when both of its parts do. -/
theorem result_bind_eq_ok {α β : Type} {x : Traced α} {f : α → Traced β} {b : β} :
    (x >>= f).result = .ok b ↔ ∃ a, x.result = .ok a ∧ (f a).result = .ok b := by
  show (x.bind f).result = .ok b ↔ _
  rw [bind]
  cases h : x.result with
  | error e => simp
  | ok a => simp

/-- A chain reports what its first part reports, then what the rest does, and comes to what the
rest comes to. -/
theorem bind_of_ok {α β : Type} {x : Traced α} {f : α → Traced β} {a : α} (h : x.result = .ok a) :
    x >>= f = ⟨x.events ++ (f a).events, (f a).result⟩ := by
  show x.bind f = _
  rw [bind, h]

theorem result_bind_of_ok {α β : Type} {x : Traced α} {f : α → Traced β} {a : α}
    (h : x.result = .ok a) : (x >>= f).result = (f a).result := by
  rw [bind_of_ok h]

/-- A chain whose first part fails is that part. -/
theorem bind_of_error {α β : Type} {x : Traced α} {f : α → Traced β} {e : Failure}
    (h : x.result = .error e) : x >>= f = ⟨x.events, .error e⟩ := by
  show x.bind f = _
  rw [bind, h]

theorem result_bind_of_error {α β : Type} {x : Traced α} {f : α → Traced β} {e : Failure}
    (h : x.result = .error e) : (x >>= f).result = .error e := by
  rw [bind_of_error h]

end Traced

/-! ## Sinks -/

/-- A store of events, the newest last, that forgets the oldest beyond its limit. -/
structure Sink where
  limit : Num
  events : List Event
  deriving Repr

namespace Sink

def defaultLimit : Num := 1000

def empty (limit : Num := defaultLimit) : Sink :=
  ⟨limit, []⟩

/-- Take in an event; if that exceeds the limit, the oldest one goes. -/
def emit (s : Sink) (e : Event) : Sink :=
  let events := s.events ++ [e]
  if s.limit.lt (.ofNat events.length) then ⟨s.limit, events.drop 1⟩ else ⟨s.limit, events⟩

def emitAll (s : Sink) (es : List Event) : Sink :=
  es.foldl emit s

def clear (s : Sink) : Sink :=
  { s with events := [] }

end Sink

end Relayout
