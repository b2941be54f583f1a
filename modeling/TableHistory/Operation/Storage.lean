import TableHistory.Escaped
import TableHistory.Operation.Instant

namespace TableHistory

inductive FileFault
  | isFolder
  | notFolder
deriving DecidableEq

def FileFault.message : FileFault → String
  | isFolder => "Is a directory (os error 21)"
  | notFolder => "Not a directory (os error 20)"

inductive StorageFault
  | notFound (path : String)
  | unreadable (path : String) (fault : FileFault)
  | notRecorded (instant : Instant)
deriving DecidableEq

def StorageFault.message : StorageFault → String
  | notFound path => "Instant file not found: " ++ path
  | unreadable path fault => "Failed to read instant file " ++ path ++ ": " ++ fault.message
  | notRecorded instant => "No bytes recorded for instant " ++ instant.describe

-- Reading is a function of the instant, and no bytes are a body like any other.
abbrev InstantReader := Instant → Except StorageFault Bytes

-- What identifies a body in the store. Completion times do not count.
structure InstantKey where
  requestedTime : String
  action : Action
  state : State
deriving DecidableEq

def Instant.key (instant : Instant) : InstantKey :=
  ⟨instant.requestedTime, instant.action, instant.state⟩

-- Bodies by key, with at most one for each.
structure InstantStore where
  cells : List (InstantKey × Bytes)
  distinct : (cells.map Prod.fst).Nodup

namespace InstantStore

def empty : InstantStore := ⟨[], .nil⟩

-- The new body takes the place of the old one.
def insert (store : InstantStore) (instant : Instant) (body : Bytes) : InstantStore where
  cells := (instant.key, body) :: store.cells.filter fun cell => cell.1 ≠ instant.key
  distinct := by
    refine List.nodup_cons.mpr ⟨fun h => ?_, ?_⟩
    · obtain ⟨cell, hc, he⟩ := List.mem_map.mp h
      simp [he] at hc
    · exact store.distinct.sublist (List.filter_sublist.map Prod.fst)

def find? (store : InstantStore) (key : InstantKey) : Option Bytes :=
  (store.cells.find? fun cell => cell.1 = key).map Prod.snd

def size (store : InstantStore) : Nat := store.cells.length

def isEmpty (store : InstantStore) : Bool := store.cells.isEmpty

def read (store : InstantStore) : InstantReader := fun instant =>
  match store.find? instant.key with
  | some body => .ok body
  | none => .error (.notRecorded instant)

end InstantStore

-- The root folder that paths are relative to.
structure TableLocation where
  root : String
deriving DecidableEq

-- The path of a relative path below the root. An absolute path stands for itself, and nothing is
-- made simpler.
def TableLocation.resolve (location : TableLocation) (path : String) : String :=
  if path.startsWith "/" then path
  else if location.root.isEmpty ∨ location.root.endsWith "/" then location.root ++ path
  else location.root ++ "/" ++ path

inductive FileNode
  | file (body : Bytes)
  | folder

-- The files and folders below a root by the parts of their paths. A folder exists as soon as
-- something lies in it.
structure FileTree where
  nodes : List (List String × FileNode)

namespace FileTree

def node? (tree : FileTree) (parts : List String) : Option FileNode :=
  match tree.nodes.find? fun node => node.1 = parts with
  | some (_, node) => some node
  | none =>
    if parts.isEmpty || tree.nodes.any fun node => parts <+: node.1 then some .folder else none

-- What a path leads to outside the tree, where nothing but the folders around the root is known.
def outside (parts : List String) : Except (Option FileFault) FileNode :=
  if parts.all fun part => part = "" || part = "." || part = ".." then .ok .folder
  else .error none

-- Follows the parts of a path from a place in the tree. Empty parts and single dots stay where
-- they are, and double dots lead to the folder around, but only folders can be passed.
def walk (tree : FileTree) : List String → List String → Except (Option FileFault) FileNode
  | place, [] =>
    match tree.node? place with
    | some node => .ok node
    | none => .error none
  | place, part :: rest =>
    match tree.node? place with
    | none => .error none
    | some (.file _) => .error (some .notFolder)
    | some .folder =>
      if part = "" ∨ part = "." then tree.walk place rest
      else if part = ".." then
        if place.isEmpty then outside rest else tree.walk place.dropLast rest
      else tree.walk (place ++ [part]) rest

end FileTree

def splitPath (path : String) : List String := path.splitOn "/"

-- A reader of files below a root.
structure FileReader where
  location : TableLocation
  tree : FileTree
  -- The path of an instant's file, relative to the root.
  pathOf : Instant → String

namespace FileReader

def readPath (reader : FileReader) (path : String) : Except StorageFault Bytes :=
  let full := reader.location.resolve path
  let parts := splitPath path
  match if path.startsWith "/" then FileTree.outside parts else reader.tree.walk [] parts with
  | .ok (.file body) => .ok body
  | .ok .folder => .error (.unreadable full .isFolder)
  | .error (some fault) => .error (.unreadable full fault)
  | .error none => .error (.notFound full)

def read (reader : FileReader) : InstantReader := fun instant =>
  reader.readPath (reader.pathOf instant)

def describe (reader : FileReader) : String :=
  "LocalInstantReader \x7b location: Local(" ++ Escaped.write reader.location.root ++ "), .. \x7d"

end FileReader

end TableHistory
