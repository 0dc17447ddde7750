import GraphPlacement.Journal
import GraphPlacement.Listing.NodeMap
import GraphPlacement.Step
import GraphPlacement.Store

/-!
# Jobs on files

**Jobs.** A job reads and writes the files of a store and keeps a journal.  A fault ends it where it
arises, with the files as they are then: a job that fails late leaves what it has written before.
-/

namespace GraphPlacement

/-- What a job works on: the files, and what it has told so far. -/
structure Desk where
  store : Store
  journal : Journal := #[]

/-- A job on files. -/
abbrev Job : Type → Type := Step Desk

namespace Job

def tell (events : List Event) : Job Unit :=
  modify fun d => { d with journal := d.journal ++ events }

def readFile (name : String) : Job ByteArray := do
  Step.ofExcept (((← get).store.read name).mapError .unreadable)

/-- Creates a file, or empties the one that is there, and gives its location. -/
def createFile (name : String) : Job Location := do
  let l ← Step.ofExcept (((← get).store.destination name).mapError .unreadable)
  modify fun d => { d with store := d.store.put l .empty }
  return l

def appendFile (file : Location) (text : String) : Job Unit :=
  modify fun d => { d with store := d.store.append file text.toUTF8 }

/-- Reads the node map of a graph with `nodes` nodes. -/
def loadNodeMap (name : String) (nodes : Nat) : Job Assignment := do
  Step.ofExcept (Listing.nodeMap (← readFile name) nodes)

def saveNodeMap (name : String) (a : Assignment) : Job Unit := do
  let file ← createFile name
  appendFile file (Listing.writeNodeMap a)

end Job

end GraphPlacement
