import LoveCoupons.RepoRuns
import LoveCoupons.SyncListens

/-!
# Runs of a repository that listens

The sync tree starts and stops listens when registrations come and go, and the server may
cancel a listen, whose registrations then go. In every run the listens are those of the topmost
locations with registrations, each once, so that no location is listened to twice.
-/

namespace LoveCoupons

open KeyedTree PathContents StepSystem Paths

variable {κ ν ρ : Type} [DecidableEq κ] {D : List κ → Prop}

/-- A repository with the events that it has raised, and the listens that its provider holds. -/
structure Listening (κ ν ρ : Type) [DecidableEq κ] where
  heard : Repo.Heard κ ν ρ := ({}, [])
  listens : List (List κ) := []

namespace Listening

/-- The locations with registrations. -/
def syncPointTree (listening : Listening κ ν ρ) : SyncPointTree κ ν ρ := listening.heard.1.serverSyncTree.syncPointTree

/-- What a listening repository is told: a message, or that the server canceled a listen. -/
inductive Told (κ ν ρ : Type) [DecidableEq κ] where
  | message (message : Repo.Message κ ν ρ)
  | canceled (path : List κ)

section Steps

variable [DecidableEq ν] [DecidableEq ρ]

/-- What a listening repository may be told: permitted messages, and that any listen was canceled. -/
def Permitted (D : List κ → Prop) (listening : Listening κ ν ρ) : Told κ ν ρ → Prop
  | .message message => Repo.Permitted D listening.heard.1 message
  | .canceled _ => True

variable {listening : Listening κ ν ρ}

end Steps

end Listening

end LoveCoupons
