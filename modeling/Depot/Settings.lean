import Depot.Digest
import Depot.Fetch.Decl
import Depot.Files
import Depot.Plan

/-!
# Settings

Settings say where things are kept, how to fetch, plan and build, which servers the names of mirrors
stand for, and which fetchers and search providers there are.
-/

namespace Depot

namespace Settings

/-- Where things are kept. -/
structure Paths where
  build : String
  cache : String
  /-- The file of the archive, if there is to be one. -/
  archive : Option String := none
  deriving DecidableEq, Repr

/-- The places below a base directory. -/
def Paths.below (base : String) : Paths := ⟨Files.join base "build", Files.join base "cache", none⟩

/-- How to fetch. -/
structure Fetching where
  /-- How many seconds a result stays fresh. -/
  ttl : Nat := 7200
  /-- Ask the sources in any case. -/
  force : Bool := false
  /-- Fetch one after the other. -/
  inTurn : Bool := false
  workers : Nat := 4
  /-- How many seconds lie between two refreshes. -/
  interval : Nat := 3600
  deriving DecidableEq, Repr

/-- How to build. -/
structure Building where
  always : Bool := false
  algorithm : Algorithm := .sha256
  deriving DecidableEq, Repr

end Settings

/-- All settings. -/
structure Settings where
  paths : Settings.Paths
  fetch : Settings.Fetching := {}
  plan : Plan.Options := {}
  build : Settings.Building := {}
  /-- The addresses that the name of a mirror stands for, by name. -/
  mirrors : List (String × List String) := []
  fetchers : List Fetch.Decl := []
  providers : List Fetch.Decl := []
  deriving DecidableEq

namespace Settings

/-- The settings of an empty file. -/
def default (base : String) : Settings := { paths := .below base }

end Settings

end Depot
