import AuthenticatedMpc.Party.Rounds
import AuthenticatedMpc.Simulation.Mesh

/-!
# Rounds over a mesh, call by call

A hub is a mesh with the round of every party. Parties make the calls of a round one at a time; a
receive that would have to wait is given up and changes nothing.
-/

namespace AuthenticatedMpc

structure Hub where
  mesh : Mesh
  buffers : List RoundBuffer

/-- A call of a party on its round. -/
inductive RoundCall where
  | send (peer : PartyId) (payload : Payload)
  | broadcast (payload : Payload)
  | flush
  | receive (peer : PartyId)
  | endRound
deriving DecidableEq, Repr

/-- The answer to a call: its result, with the payload of a receive, or that it would wait. -/
inductive RoundReply where
  | result (result : Except Error (Option Payload))
  | waiting

namespace RoundCall

def program (me : PartyId) : RoundCall → Program RoundBuffer (Option Payload)
  | send peer payload => do
    RoundBuffer.send me peer payload
    pure none
  | broadcast payload => do
    RoundBuffer.broadcast me payload
    pure none
  | flush => do
    RoundBuffer.flush
    pure none
  | receive peer => do
    let payload ← RoundBuffer.receive me peer
    pure (some payload)
  | endRound => do
    RoundBuffer.endRound
    pure none

end RoundCall

namespace Hub

def start (phases : List Phase) : Hub where
  mesh := .connect phases.length
  buffers := phases.map fun phase => .start phase phases.length

def call (hub : Hub) (me : PartyId) (call : RoundCall) : RoundReply × Hub :=
  match hub.buffers[me]? with
  | none => (.waiting, hub)
  | some buffer =>
    let run := Program.run (Mesh.port me) (fun _ _ => ([] : List Unit)) (call.program me) buffer
      hub.mesh []
    let after : Hub := ⟨run.transport, hub.buffers.set me run.actor.state⟩
    match run.actor.program with
    | .pure payload => (.result (.ok payload), after)
    | .fail error => (.result (.error error), after)
    | _ => (.waiting, hub)

end Hub
end AuthenticatedMpc
