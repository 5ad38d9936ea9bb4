import AuthenticatedMpc.Proofs.Runs.Dialogue
import Mathlib.Logic.Function.Basic

/-!
# Runs on a given feed

A feed holds the packets that a party receives. Over a transport that takes every packet and
delivers those of the feed, a program ends in at most one way.
-/

namespace AuthenticatedMpc

variable {σ α : Type}

/-- The packets from each peer, in the order in which they are received. -/
abbrev Feed := PartyId → Nat → Packet

namespace Feed

/-- The packets received are the first ones of the feed. -/
def Follows (feed : Feed) (talk : List Signal) : Prop :=
  ∀ peer k packet, (receivedFrom peer talk)[k]? = some packet → packet = feed peer k

/-- No send or receive fails, and the packets received are the first ones of the feed. -/
structure Serves (feed : Feed) (moves : List Move) : Prop where
  hasFailed : ∀ move ∈ moves, move.hasFailed = false
  follows : feed.Follows (moves.filterMap Move.signal?)

def advance (feed : Feed) (peer : PartyId) : Feed :=
  Function.update feed peer fun k => feed peer (k + 1)

variable {feed : Feed} {peer : PartyId} {packet : Packet} {talk : List Signal}

theorem follows_received : feed.Follows (.received peer packet :: talk) ↔
    packet = feed peer 0 ∧ (feed.advance peer).Follows talk := by
  constructor
  · intro h
    refine ⟨h peer 0 packet (by simp), fun q k other hother => ?_⟩
    rcases eq_or_ne q peer with rfl | hq
    · rw [advance, Function.update_self]
      exact h q (k + 1) other (by simpa using hother)
    · rw [advance, Function.update_of_ne hq]
      exact h q k other (by simpa [hq.symm] using hother)
  · rintro ⟨hfirst, h⟩ q k other hother
    rcases eq_or_ne q peer with rfl | hq
    · rw [receivedFrom_received, if_pos rfl] at hother
      cases k with
      | zero => exact (Option.some.inj hother).symm.trans hfirst
      | succ k =>
        have hrest := h q k other hother
        rwa [advance, Function.update_self] at hrest
    · rw [receivedFrom_received, if_neg hq.symm] at hother
      have hrest := h q k other hother
      rwa [advance, Function.update_of_ne hq] at hrest

end Feed

namespace Program

variable {p : Program σ α} {s final final' : σ} {feed : Feed} {talk talk' : List Signal}
  {outcome outcome' : Except Error α}

/-- Over a transport that serves the feed, the program ends, and always with this outcome. -/
structure Returns (feed : Feed) (p : Program σ α) (s : σ) (outcome : Except Error α) : Prop where
  exists_path : ∃ moves final, Path ⟨p, s⟩ moves ⟨.ofExcept outcome, final⟩ ∧ feed.Serves moves
  unique : ∀ {moves outcome' final}, Path ⟨p, s⟩ moves ⟨.ofExcept outcome', final⟩ →
    feed.Serves moves → outcome' = outcome

/-- The packets received decide the outcome. -/
theorem Ends.outcome_eq (h : p.Ends s talk outcome final) (h' : p.Ends s talk' outcome' final')
    (hfeed : feed.Follows talk) (hfeed' : feed.Follows talk') : outcome' = outcome := by
  induction p generalizing s talk talk' feed with
  | pure _ | fail _ => exact h'.2.1.trans h.2.1.symm
  | never => exact h.elim
  | step _ _ _ ih => exact ih _ h h' hfeed hfeed'
  | send _ _ _ ih =>
    obtain ⟨rest, rfl, h⟩ := h
    obtain ⟨rest', rfl, h'⟩ := h'
    exact ih _ h h' hfeed hfeed'
  | receive _ _ ih =>
    obtain ⟨packet, rest, rfl, h⟩ := h
    obtain ⟨packet', rest', rfl, h'⟩ := h'
    obtain ⟨rfl, hrest⟩ := Feed.follows_received.mp hfeed
    obtain ⟨rfl, hrest'⟩ := Feed.follows_received.mp hfeed'
    exact ih _ h h' hrest hrest'
  | close _ ih =>
    obtain ⟨rest, rfl, h⟩ := h
    obtain ⟨rest', rfl, h'⟩ := h'
    exact ih h h' hfeed hfeed'

theorem returns_iff :
    p.Returns feed s outcome ↔ ∃ talk final, p.Ends s talk outcome final ∧ feed.Follows talk := by
  constructor
  · rintro ⟨⟨moves, final, hpath, hserves⟩, -⟩
    exact ⟨_, final, ends_iff_path.mpr ⟨moves, hpath, hserves.hasFailed, rfl⟩, hserves.follows⟩
  · rintro ⟨_, final, hends, hfollows⟩
    obtain ⟨moves, hpath, hok, rfl⟩ := ends_iff_path.mp hends
    refine ⟨⟨moves, final, hpath, hok, hfollows⟩, fun hpath' hserves' => ?_⟩
    exact hends.outcome_eq (ends_iff_path.mpr ⟨_, hpath', hserves'.hasFailed, rfl⟩) hfollows
      hserves'.follows

end Program
end AuthenticatedMpc
