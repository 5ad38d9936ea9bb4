import AuthenticatedMpc.Error
import AuthenticatedMpc.Ledger

/-!
# Programs of a party

What a party does is a tree: it ends with a value or an error, changes its own state, or talks to
the transport and goes on with the reply. Everything it has done up to a point is in its state and
in the events that its steps carry, so a party can be looked at wherever it stands: between two
messages, waiting for one, or after an error.

A program is finite in depth along every run. What would repeat forever ends in `never`.
-/

namespace AuthenticatedMpc

/-- Something that happens inside a party. -/
inductive Event where
  /-- A batch of gates is taken from the stream. -/
  | taken (count : Nat)
  /-- A gate of a batch starts a round. -/
  | evaluating (phase : Phase) (gate round : Nat)
  /-- A value is opened and recorded. -/
  | opened (record : Record)
  /-- A MAC check over the records begins. -/
  | checking (check : UInt64) (records : List Record)
  /-- The MAC check has passed. -/
  | verified (check : UInt64)
  /-- A call of the party has returned. -/
  | returned
deriving DecidableEq, Repr

/-- The program of a party with state `σ` that ends with a value of `α`. -/
inductive Program (σ α : Type) where
  | pure (value : α)
  | fail (error : Error)
  /-- Goes on forever without doing anything. -/
  | never
  /-- Changes the state, and goes on by what the state was. -/
  | step (event : Option Event) (update : σ → σ) (next : σ → Program σ α)
  | send (peer : PartyId) (packet : Packet) (next : Except NetworkError Unit → Program σ α)
  | receive (peer : PartyId) (next : Except NetworkError Packet → Program σ α)
  /-- Ends the streams to all other parties. -/
  | close (next : Program σ α)

/-- A part of a state that can be read and replaced. -/
structure Lens (σ τ : Type) where
  get : σ → τ
  set : σ → τ → σ
  get_set : ∀ s t, get (set s t) = t
  set_get : ∀ s, set s (get s) = s
  set_set : ∀ s t u, set (set s t) u = set s u

namespace Program

variable {σ τ α β : Type}

def bind : Program σ α → (α → Program σ β) → Program σ β
  | pure value, k => k value
  | fail error, _ => fail error
  | never, _ => never
  | step event update next, k => step event update fun s => bind (next s) k
  | send peer packet next, k => send peer packet fun reply => bind (next reply) k
  | receive peer next, k => receive peer fun reply => bind (next reply) k
  | close next, k => close (bind next k)

instance : Monad (Program σ) where
  pure := pure
  bind := bind

theorem pure_bind (value : α) (k : α → Program σ β) : (pure value).bind k = k value := rfl

theorem bind_pure (program : Program σ α) : program.bind pure = program := by
  induction program with
  | pure _ | fail _ | never => rfl
  | step event update next ih | send peer packet next ih | receive peer next ih =>
    simp only [bind, ih]
  | close next ih => simp only [bind, ih]

theorem bind_assoc {γ : Type} (program : Program σ α) (k : α → Program σ β) (l : β → Program σ γ) :
    (program.bind k).bind l = program.bind fun value => (k value).bind l := by
  induction program with
  | pure _ | fail _ | never => rfl
  | step event update next ih | send peer packet next ih | receive peer next ih =>
    simp only [bind, ih]
  | close next ih => simp only [bind, ih]

instance : LawfulMonad (Program σ) := LawfulMonad.mk' (Program σ)
  bind_pure (fun _ _ => rfl) bind_assoc

def attempt : Program σ α → Program σ (Except Error α)
  | pure value => pure (.ok value)
  | fail error => pure (.error error)
  | never => never
  | step event update next => step event update fun s => attempt (next s)
  | send peer packet next => send peer packet fun reply => attempt (next reply)
  | receive peer next => receive peer fun reply => attempt (next reply)
  | close next => close (attempt next)

def zoom (part : Lens σ τ) : Program τ α → Program σ α
  | pure value => pure value
  | fail error => fail error
  | never => never
  | step event update next =>
    step event (fun s => part.set s (update (part.get s))) fun s => zoom part (next (part.get s))
  | send peer packet next => send peer packet fun reply => zoom part (next reply)
  | receive peer next => receive peer fun reply => zoom part (next reply)
  | close next => close (zoom part next)

theorem zoom_bind (part : Lens σ τ) (program : Program τ α) (k : α → Program τ β) :
    (program.bind k).zoom part = (program.zoom part).bind fun value => (k value).zoom part := by
  induction program with
  | pure _ | fail _ | never => rfl
  | step event update next ih | send peer packet next ih | receive peer next ih =>
    simp only [bind, zoom, ih]
  | close next ih => simp only [bind, zoom, ih]

/-! ## Steps on the state -/

def get : Program σ σ := step none id pure

def set (s : σ) : Program σ Unit := step none (fun _ => s) fun _ => pure ()

def modify (update : σ → σ) : Program σ Unit := step none update fun _ => pure ()

def mark (event : Event) : Program σ Unit := step (some event) id fun _ => pure ()

/-- Marks an event together with the change it makes. -/
def record (event : Event) (update : σ → σ) : Program σ Unit :=
  step (some event) update fun _ => pure ()

def ofExcept : Except Error α → Program σ α
  | .ok value => pure value
  | .error error => fail error

/-! ## Talking to the transport -/

def transmit (peer : PartyId) (packet : Packet) : Program σ Unit :=
  send peer packet fun reply =>
    match reply with
    | .ok () => pure ()
    | .error error => fail (.network error)

def await (peer : PartyId) : Program σ Packet :=
  receive peer fun reply =>
    match reply with
    | .ok packet => pure packet
    | .error error => fail (.network error)

end Program
end AuthenticatedMpc
