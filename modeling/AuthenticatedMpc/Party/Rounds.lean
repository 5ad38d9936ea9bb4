import AuthenticatedMpc.Party.Basic
import AuthenticatedMpc.Party.Program

/-!
# Rounds of messages

The many small messages of a round travel in one packet per peer. What is queued in a round is
shipped by `flush`; what a peer sent in its round is fetched by the first receive from it and must
be consumed by the end of the round. A packet of another phase, a missing message and a surplus
message all show that the peer is at another point of the computation.
-/

namespace AuthenticatedMpc

/-- The messages of the current round, by party. -/
structure RoundBuffer where
  phase : Phase
  /-- What is queued for each party. -/
  outbox : List (List Payload)
  /-- What was fetched from each party and not consumed yet. -/
  inbox : List (List Payload)
  /-- Whether the packet of the round was fetched from each party. -/
  fetched : List Bool
deriving DecidableEq, Repr

namespace RoundBuffer

def start (phase : Phase) (parties : Nat) : RoundBuffer where
  phase := phase
  outbox := List.replicate parties []
  inbox := List.replicate parties []
  fetched := List.replicate parties false

def parties (buffer : RoundBuffer) : Nat := buffer.outbox.length

def queued (buffer : RoundBuffer) (peer : PartyId) : List Payload := buffer.outbox[peer]?.getD []

def pending (buffer : RoundBuffer) (peer : PartyId) : List Payload := buffer.inbox[peer]?.getD []

def hasFetched (buffer : RoundBuffer) (peer : PartyId) : Bool := buffer.fetched[peer]?.getD false

def isPeer (buffer : RoundBuffer) (me peer : PartyId) : Bool :=
  decide (peer < buffer.parties) && peer != me

def post (buffer : RoundBuffer) (peer : PartyId) (payload : Payload) : RoundBuffer :=
  { buffer with outbox := buffer.outbox.modify peer (· ++ [payload]) }

def postAll (buffer : RoundBuffer) (me : PartyId) (payload : Payload) : RoundBuffer :=
  { buffer with
    outbox := buffer.outbox.mapIdx fun peer queue =>
      if peer = me then queue else queue ++ [payload] }

def clearQueue (buffer : RoundBuffer) (peer : PartyId) : RoundBuffer :=
  { buffer with outbox := buffer.outbox.set peer [] }

def accept (buffer : RoundBuffer) (peer : PartyId) (messages : List Payload) : RoundBuffer :=
  { buffer with
    inbox := buffer.inbox.modify peer (· ++ messages)
    fetched := buffer.fetched.set peer true }

def consume (buffer : RoundBuffer) (peer : PartyId) : RoundBuffer :=
  { buffer with inbox := buffer.inbox.modify peer List.tail }

def clearInbox (buffer : RoundBuffer) : RoundBuffer :=
  { buffer with
    inbox := buffer.inbox.map fun _ => []
    fetched := buffer.fetched.map fun _ => false }

/-- The first party with messages left, and their number. -/
def surplus? (buffer : RoundBuffer) : Option (PartyId × Nat) :=
  (buffer.inbox.zipIdx.find? fun entry => !entry.1.isEmpty).map fun entry =>
    (entry.2, entry.1.length)

/-! ## The operations of a party -/

def send (me peer : PartyId) (payload : Payload) : Program RoundBuffer Unit := do
  let buffer ← Program.get
  if buffer.isPeer me peer then Program.modify (·.post peer payload)
  else Program.fail (.setup (.cannotSend peer))

def broadcast (me : PartyId) (payload : Payload) : Program RoundBuffer Unit :=
  Program.modify (·.postAll me payload)

/-- Fetches the packet of a peer unless the round already has it. -/
def fetch (peer : PartyId) : Program RoundBuffer Unit := do
  let buffer ← Program.get
  if buffer.hasFetched peer then pure ()
  else
    let packet ← Program.await peer
    if packet.phase = buffer.phase then Program.modify (·.accept peer packet.messages)
    else Program.fail (.desynchronized (.wrongPhase peer packet.phase buffer.phase))

def receive (me peer : PartyId) : Program RoundBuffer Payload := do
  let buffer ← Program.get
  if buffer.isPeer me peer then
    fetch peer
    let buffer ← Program.get
    match buffer.pending peer with
    | message :: _ =>
      Program.modify (·.consume peer)
      pure message
    | [] => Program.fail (.desynchronized (.tooFewMessages peer buffer.phase))
  else Program.fail (.setup (.cannotReceive peer))

/-- Ships what is queued for the given parties, one packet each. -/
def flushTo : List PartyId → Program RoundBuffer Unit
  | [] => pure ()
  | peer :: rest => do
    let buffer ← Program.get
    match buffer.queued peer with
    | [] => flushTo rest
    | messages =>
      Program.modify (·.clearQueue peer)
      Program.transmit peer ⟨buffer.phase, messages⟩
      flushTo rest

/-- Ships all that is queued, in the order of the parties. -/
def flush : Program RoundBuffer Unit := do
  let buffer ← Program.get
  flushTo (List.range buffer.parties)

/-- Ends the round; every fetched message must have been consumed. -/
def endRound : Program RoundBuffer Unit := do
  let buffer ← Program.get
  Program.modify clearInbox
  match buffer.surplus? with
  | none => pure ()
  | some (peer, count) =>
    Program.fail (.desynchronized (.tooManyMessages peer count buffer.phase))

end RoundBuffer
end AuthenticatedMpc
