import LoveCoupons.SyncViews
import LoveCoupons.Lib.Runs

/-!
# The repository of the database

`FRepo` gives each write of the app the next identifier, tells the sync tree of it, and later
of the answer of the server. The data of the server, the answers to listens and the
registrations of the app come in between, in any order.

Transactions, server values and writes kept on disk are left out, since the app has none. A
step has no result where the code asserts or raises an exception.
-/

namespace LoveCoupons

open KeyedTree PathContents StepSystem

variable {κ ν ρ : Type} [DecidableEq κ] [DecidableEq ν]

/-- `kFWPResponseForActionStatusOk`. -/
def responseForActionStatusOk : String := "ok"

/-- `kFErrorWriteCanceled`. -/
def errorWriteCanceled : String := "write_canceled"

/-- `FRepo`. -/
structure Repo (κ ν ρ : Type) [DecidableEq κ] where
  serverSyncTree : SyncTree κ ν ρ := {}
  writeIdCounter : ℤ := 0

namespace Repo

/-- The repository after an operation of its sync tree. -/
def withSyncTree (repo : Repo κ ν ρ) (result : Option (SyncTree κ ν ρ × RaisedEvents κ ν ρ)) :
    Option (Repo κ ν ρ × RaisedEvents κ ν ρ) :=
  result.map fun result => ({ repo with serverSyncTree := result.1 }, result.2)

/-- `-[FRepo set:withNode:withCallback:]`. -/
def set (repo : Repo κ ν ρ) (path : List κ) (newNode : Snap κ ν) : Option (Repo κ ν ρ × RaisedEvents κ ν ρ) :=
  let writeId := repo.writeIdCounter
  let counted : Repo κ ν ρ := { repo with writeIdCounter := writeId + 1 }
  counted.withSyncTree (repo.serverSyncTree.applyUserOverwriteAtPath path newNode writeId true)

/-- `-[FRepo update:withNodes:withCallback:]`. -/
def update (repo : Repo κ ν ρ) (path : List κ) (resolved : CompoundWrite κ ν) :
    Option (Repo κ ν ρ × RaisedEvents κ ν ρ) :=
  if resolved.isEmpty then some (repo, [])
  else
    let writeId := repo.writeIdCounter
    let counted : Repo κ ν ρ := { repo with writeIdCounter := writeId + 1 }
    counted.withSyncTree (repo.serverSyncTree.applyUserMergeAtPath path resolved writeId)

/-- `-[FRepo ackWrite:rerunTransactionsAtPath:status:]`. -/
def ackWrite (repo : Repo κ ν ρ) (writeId : ℤ) (status : String) : Option (Repo κ ν ρ × RaisedEvents κ ν ρ) :=
  if status = errorWriteCanceled then some (repo, [])
  else
    let success := status = responseForActionStatusOk
    repo.withSyncTree (repo.serverSyncTree.ackUserWriteWithWriteId writeId (!success))

/-- What a repository is told. -/
inductive Message (κ ν ρ : Type) [DecidableEq κ] where
  | set (path : List κ) (newNode : Snap κ ν)
  | update (path : List κ) (resolved : CompoundWrite κ ν)
  | ackWrite (writeId : ℤ) (status : String)
  | dataUpdate (path : List κ) (snap : Snap κ ν)
  | dataMerge (path : List κ) (changedChildren : CompoundWrite κ ν)
  | listenComplete (path : List κ)
  | addEventRegistration (path : List κ) (eventRegistration : ρ)
  | removeEventRegistration (path : List κ) (eventRegistration : Option ρ)
  | purgeOutstandingWrites

/-- What a repository does when it is told something, and the events that it raises. -/
def receive [DecidableEq ρ] (repo : Repo κ ν ρ) : Message κ ν ρ → Option (Repo κ ν ρ × RaisedEvents κ ν ρ)
  | .set path newNode => repo.set path newNode
  | .update path resolved => repo.update path resolved
  | .ackWrite writeId status => repo.ackWrite writeId status
  | .dataUpdate path snap => repo.withSyncTree (repo.serverSyncTree.applyServerOverwriteAtPath path snap)
  | .dataMerge path changedChildren =>
    repo.withSyncTree (repo.serverSyncTree.applyServerMergeAtPath path changedChildren)
  | .listenComplete path => repo.withSyncTree (repo.serverSyncTree.applyListenCompleteAtPath path)
  | .addEventRegistration path eventRegistration =>
    repo.withSyncTree (some (repo.serverSyncTree.addEventRegistration path eventRegistration))
  | .removeEventRegistration path eventRegistration =>
    repo.withSyncTree (some (repo.serverSyncTree.removeEventRegistration path eventRegistration, []))
  | .purgeOutstandingWrites => repo.withSyncTree repo.serverSyncTree.removeAllWrites

/-- A repository and the events that it has raised so far. -/
abbrev Heard (κ ν ρ : Type) [DecidableEq κ] := Repo κ ν ρ × RaisedEvents κ ν ρ

/-- What is left after a message, with the events that it raises put at the end. -/
def hear [DecidableEq ρ] (heard : Heard κ ν ρ) (message : Message κ ν ρ) : Option (Heard κ ν ρ) :=
  (heard.1.receive message).map fun result => (result.1, heard.2 ++ result.2)

end Repo

end LoveCoupons
