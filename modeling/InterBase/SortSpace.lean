import InterBase.Machine

namespace InterBase

/-- A piece of a work file, from `wfsPosition` on. -/
structure Wfs where
  wfsPosition : Nat
  wfsSize : Nat
deriving Repr, DecidableEq

/-- A work file. `sfbDls` is the place of its directory in the list of temporary directories. -/
structure Sfb where
  sfbFileSize : Nat
  sfbFileSpace : List Wfs
  sfbFreeWfs : List Wfs
  sfbDls : Nat
deriving Repr, DecidableEq

/-- A temporary directory. -/
structure Dls where
  dlsSize : Nat
  dlsInuse : Nat
deriving Repr, DecidableEq

/-- The work files of a sort, and the directories that all sorts share. -/
structure SortFiles where
  scbSfb : List Sfb
  mdlsDls : List Dls
deriving Repr, DecidableEq

def maxTempfileSize : Nat := 1900000000

/-- The block that `best` points to, with its place in the list of its file. -/
structure Best where
  file : Nat
  place : Nat
  space : Wfs

/-- The spaces of one file; `place` is that of the first of them. -/
def searchSpaces (size file place : Nat) (best : Option Best) : List Wfs → Option Best
  | [] => best
  | space :: rest =>
    let smaller := best.all fun b => space.wfsSize < b.space.wfsSize
    let best := if size ≤ space.wfsSize ∧ smaller then some ⟨file, place, space⟩ else best
    searchSpaces size file (place + 1) best rest

def searchFiles (size file : Nat) (best : Option Best) : List Sfb → Option Best
  | [] => best
  | sfb :: rest =>
    searchFiles size (file + 1) (searchSpaces size file 0 best sfb.sfbFileSpace) rest

/-- What is left of a file when a block of it has been taken. -/
def Sfb.takeBlock (size : Nat) (best : Best) (sfb : Sfb) : Sfb :=
  if best.space.wfsSize = size then
    { sfb with
      sfbFileSpace := sfb.sfbFileSpace.eraseIdx best.place
      sfbFreeWfs := best.space :: sfb.sfbFreeWfs }
  else
    { sfb with
      sfbFileSpace := sfb.sfbFileSpace.set best.place
        { best.space with wfsSize := best.space.wfsSize - size } }

def Dls.hasRoom (size : Nat) (dls : Dls) : Bool :=
  size ≤ ulong (dls.dlsSize + 4294967296 - dls.dlsInuse)

def Dls.take (size : Nat) (dls : Dls) : Dls := { dls with dlsInuse := ulong (dls.dlsInuse + size) }

/-- `DLS_put_temp_space` for a file of a size. -/
def Dls.put (size : Nat) (dls : Dls) : Dls :=
  if size < dls.dlsInuse then { dls with dlsInuse := dls.dlsInuse - size }
  else { dls with dlsInuse := 0 }

/-- `DLS_get_temp_space` for a file that has a directory. -/
def dlsGetTempSpace (size place : Nat) (mdls : List Dls) : Option (List Dls) :=
  if (mdls[place]?).any (Dls.hasRoom size) then some (mdls.modify place (Dls.take size)) else none

/-- `DLS_get_temp_space` for a new file, with the place of its directory. -/
def dlsFindTempSpace (size : Nat) (mdls : List Dls) : Option (List Dls × Nat) :=
  (mdls.findIdx? (Dls.hasRoom size)).map fun place => (mdls.modify place (Dls.take size), place)

/-- A file behind the others. `added` and `opened` say whether the system has memory for another
directory and creates the file; where it does not, the sort ends with an error. -/
def newFile (added opened : Bool) (size : Nat) (s : SortFiles) : Option (SortFiles × Nat × Nat) :=
  let full := (s.scbSfb.getLast?.bind fun last => s.mdlsDls[last.sfbDls]?).any fun dls =>
    maxTempfileSize ≤ ulong (dls.dlsInuse + size)
  if full ∧ added = false then none
  else
    let mdls := if full then s.mdlsDls ++ [⟨maxTempfileSize, 0⟩] else s.mdlsDls
    match dlsFindTempSpace size mdls with
    | none => none
    | some (mdls, place) =>
      if opened then some (⟨s.scbSfb ++ [⟨size, [], [], place⟩], mdls⟩, s.scbSfb.length, 0) else none

/-- The files, with the file and the position of the space that has been found. -/
def findFileSpace (added opened : Bool) (size : Nat) (s : SortFiles) :
    Option (SortFiles × Nat × Nat) :=
  match searchFiles size 0 none s.scbSfb with
  | some best =>
    let s := { s with scbSfb := s.scbSfb.modify best.file (Sfb.takeBlock size best) }
    if best.space.wfsSize = size then some (s, best.file, best.space.wfsPosition)
    else some (s, best.file, best.space.wfsPosition + (best.space.wfsSize - size))
  | none =>
    match s.scbSfb.getLast? with
    | none => newFile added opened size s
    | some last =>
      match dlsGetTempSpace size last.sfbDls s.mdlsDls with
      | none => newFile added opened size s
      | some mdls =>
        let fileSize := ulong (last.sfbFileSize + size)
        if maxTempfileSize ≤ fileSize then newFile added opened size { s with mdlsDls := mdls }
        else
          some (⟨s.scbSfb.dropLast ++ [{ last with sfbFileSize := fileSize }], mdls⟩,
            s.scbSfb.length - 1, ulong (fileSize + 4294967296 - size))

/-- The new block goes in front of `rest`, in a descriptor that has been used before if there is
one. -/
def Sfb.insertSpace (position size : Nat) (before rest : List Wfs) (sfb : Sfb) : Sfb :=
  { sfb with
    sfbFileSpace := before ++ ⟨position, size⟩ :: rest
    sfbFreeWfs := sfb.sfbFreeWfs.tail }

def freeFileSpace (position size : Nat) (sfb : Sfb) : Sfb :=
  let stop := ulong (position + size)
  let before := sfb.sfbFileSpace.takeWhile fun space => stop < space.wfsPosition
  match sfb.sfbFileSpace.dropWhile fun space => stop < space.wfsPosition with
  | [] => sfb.insertSpace position size before []
  | space :: rest =>
    if stop = space.wfsPosition then
      { sfb with
        sfbFileSpace := before ++ ⟨space.wfsPosition - size, space.wfsSize + size⟩ :: rest }
    else if position = space.wfsPosition + space.wfsSize then
      match rest with
      | next :: rest' =>
        if stop = next.wfsPosition then
          { sfb with
            sfbFileSpace :=
              before ++ ⟨space.wfsPosition, space.wfsSize + size + next.wfsSize⟩ :: rest'
            sfbFreeWfs := next :: sfb.sfbFreeWfs }
        else
          { sfb with
            sfbFileSpace := before ++ ⟨space.wfsPosition, space.wfsSize + size⟩ :: rest }
      | [] =>
        { sfb with sfbFileSpace := before ++ [⟨space.wfsPosition, space.wfsSize + size⟩] }
    else sfb.insertSpace position size before (space :: rest)

end InterBase
