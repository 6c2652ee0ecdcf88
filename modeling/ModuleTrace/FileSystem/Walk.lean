import ModuleTrace.FileSystem

/-!
# Walks through a directory

A walk goes from a directory to all that lies in it, and leaves out what its guide does not
follow. The guide may learn something in each directory and use it below. What a walk starts
from is never left out.
-/

namespace ModuleTrace

inductive Visit where
  | entry (path : Path) (kind : EntryKind)
  | failure (path : Path) (error : ReadError)
  deriving DecidableEq, Repr

structure Guide (m : Type → Type) (σ : Type) where
  /-- What is known in a directory, from what was known around it. -/
  enter : σ → Path → m σ
  follows : σ → String → EntryKind → Bool

namespace Guide

/-- Knows nothing, and passes by some names. -/
def avoiding {m : Type → Type} [Monad m] (names : List String) : Guide m Unit where
  enter _ _ := return ()
  follows _ name _ := !names.contains name

end Guide

namespace FileSystem

section

variable {m : Type → Type} [Monad m] (fs : FileSystem m) {σ : Type} (guide : Guide m σ)

def walkBelow : Nat → σ → Path → m (List Visit)
  | 0, _, _ => return []
  | fuel + 1, around, directory => do
      match ← fs.entries directory with
      | .error error => return [.failure directory error]
      | .ok found =>
          let here ← guide.enter around directory
          let followed := found.filter fun entry => guide.follows here entry.1 entry.2
          let visits ← followed.mapM fun entry => do
            let path := directory / entry.1
            let below ←
              if entry.2 = .directory then walkBelow fuel here path else pure []
            return Visit.entry path entry.2 :: below
          return visits.flatten

def walk (start : σ) (root : Path) : m (List Visit) := do
  match ← fs.kind root with
  | .error error => return [.failure root error]
  | .ok .directory =>
      return .entry root .directory :: (← fs.walkBelow guide fs.extent start root)
  | .ok kind => return [.entry root kind]

end

end FileSystem

def Visit.paths (kind : EntryKind) (visits : List Visit) : List Path :=
  visits.filterMap fun visit =>
    match visit with
    | .entry path found => if found = kind then some path else none
    | .failure _ _ => none

def Visit.failure? (visits : List Visit) : Option (Path × ReadError) :=
  visits.findSome? fun visit =>
    match visit with
    | .entry _ _ => none
    | .failure path error => some (path, error)

end ModuleTrace
