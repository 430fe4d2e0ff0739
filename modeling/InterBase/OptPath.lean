import InterBase.Cvt

namespace InterBase.AccessPath

open Cvt

def rsbEnd : UInt8 := 0
def rsbBegin : UInt8 := 1
def rsbType : UInt8 := 2
def rsbRelation : UInt8 := 3

def infoAnd : UInt8 := 1
def infoOr : UInt8 := 2
def infoDbkey : UInt8 := 3
def infoIndex : UInt8 := 4

def infoIndexed : UInt8 := 2
def infoNavigate : UInt8 := 3
def infoSequential : UInt8 := 4
def infoLeftCross : UInt8 := 15
def infoProcedure : UInt8 := 21

/-- A name whose length is a `USHORT`. -/
structure Name where
  bytes : List UInt8
  short : bytes.length < 65536
deriving DecidableEq

/-- What `MET_lookup_index` leaves in `index_name [32]`. -/
structure IndexName where
  bytes : List UInt8
  short : bytes.length ≤ 31
deriving DecidableEq

/-- An index inversion. -/
inductive Inversion where
  | bitAnd (left right : Inversion)
  | bitOr (left right : Inversion)
  | bitDbkey
  | index (name : IndexName)
deriving DecidableEq

/-- The rsbs that have no data of their own in an access path. -/
inductive PlainType where
  | boolean
  | dbkey
  | first
  | skip
  | multiple
  | project
  | sequential
  | sort
  | aggregate
  | extSequential
  | extIndexed
  | extDbkey
  | bitSieve
  | select
  | sqlJoin
  | simulate
  | simCross
  | once
deriving Repr, DecidableEq

def PlainType.info : PlainType → UInt8
  | sequential => 4
  | sort => 6
  | first => 7
  | boolean => 8
  | aggregate => 10
  | extSequential => 12
  | extIndexed => 13
  | extDbkey => 14
  | select => 16
  | sqlJoin => 17
  | simulate => 18
  | simCross => 19
  | once => 20
  | skip => 22
  | dbkey | multiple | project | bitSieve => 1

/-- The rsbs with a number of streams. Those of a union are every second of its arguments, as are
those of a merge. -/
inductive JoinType where
  | cross
  | union
  | merge
deriving Repr, DecidableEq

def JoinType.info : JoinType → UInt8
  | cross => 5
  | union => 9
  | merge => 11

mutual

/-- A record source block. -/
inductive Rsb where
  | mk (rsbAlias rsbRelation : Option Name) (arg : RsbArg) (rsbNext : NextRsb)

inductive RsbArg where
  | indexed (node : Inversion)
  | navigate (node : Inversion)
  | join (type : JoinType) (streams : Streams)
  | leftCross (outer inner : Rsb)
  | procedure (prc : Procedure)
  | plain (type : PlainType)

inductive NextRsb where
  | none
  | some (rsb : Rsb)

inductive Streams where
  | nil
  | cons (rsb : Rsb) (rest : Streams)

/-- The procedure of an rsb: without a request, with a request that has no rsbs, or with one that has
them. A request may itself be that of a procedure. -/
inductive Procedure where
  | missing
  | noFors (prcName : Option Name)
  | request (reqProcedure : Bool) (reqFors : Fors)

/-- The rsbs of a request, by the order of the vector. -/
inductive Fors where
  | nil
  | cons (entry : NextRsb) (rest : Fors)

end

/-- What a function has done: whether it goes on, the bytes that it has written, and what it has left
of `buffer_length`. -/
structure Dump where
  ok : Bool
  written : List UInt8
  left : Int
deriving DecidableEq

def Dump.andThen (d : Dump) (next : Int → Dump) : Dump :=
  if d.ok then { next d.left with written := d.written ++ (next d.left).written } else d

/-- `*buffer_length -= n`, and the end if that is less than 0. -/
def take (n : Int) (left : Int) : Dump :=
  let left := toSshort (left - n)
  ⟨0 ≤ left, [], left⟩

def put (bytes : List UInt8) (left : Int) : Dump := ⟨true, bytes, left⟩

/-- A length in a byte, and the characters. -/
def counted (bytes : List UInt8) : List UInt8 := UInt8.ofNat bytes.length :: bytes

def dumpIndex : Inversion → Int → Dump
  | .bitAnd a b, left =>
    (((take 1 left).andThen (put [infoAnd])).andThen (dumpIndex a)).andThen (dumpIndex b)
  | .bitOr a b, left =>
    (((take 1 left).andThen (put [infoOr])).andThen (dumpIndex a)).andThen (dumpIndex b)
  | .bitDbkey, left => (take 1 left).andThen (put [infoDbkey])
  | .index name, left =>
    ((take 1 left).andThen (put [infoIndex])).andThen fun left =>
      let left := toSshort (left - (name.bytes.length + 1))
      -- Without room the name is left out, which is not an error.
      if 0 ≤ left then ⟨true, counted name.bytes, left⟩ else ⟨true, [], left⟩

/-- The alias or else the relation. -/
def dumpName (name : Option Name) (left : Int) : Dump :=
  match name with
  | none => put [] left
  | some name =>
    (take (2 + name.bytes.length) left).andThen (put (rsbRelation :: counted name.bytes))

/-- The result of `OPT_access_path`. -/
structure Path where
  dump : Dump
  returnLength : Nat
deriving DecidableEq

/-- The bytes of a nested path count after they have been written. -/
def takePath (path : Path) (left : Int) : Dump :=
  if path.dump.ok then
    let left := toSshort (left - toSshort (ushort path.returnLength))
    ⟨0 ≤ left, path.dump.written, left⟩
  else ⟨false, path.dump.written, left⟩

def nameBytes (name : Option Name) : List UInt8 := name.elim [] Name.bytes

mutual

def dumpRsb (reqProcedure : Bool) : Rsb → Int → Dump
  | .mk rsbAlias rsbRelation arg rsbNext, left =>
    ((((((take 4 left).andThen (put [rsbBegin])).andThen
      (dumpName (rsbAlias.or rsbRelation))).andThen (put [rsbType])).andThen
      (dumpArg reqProcedure arg)).andThen (dumpNext reqProcedure rsbNext)).andThen (put [rsbEnd])

/-- The type, the data of the type, and the streams. -/
def dumpArg (reqProcedure : Bool) : RsbArg → Int → Dump
  | .indexed node, left =>
    ((put [infoIndexed] left).andThen (dumpIndex node)).andThen (take 1)
  | .navigate node, left =>
    ((put [infoNavigate] left).andThen (dumpIndex node)).andThen (take 1)
  | .join type streams, left =>
    (put [type.info, UInt8.ofNat (streamCount streams)] left).andThen
      (dumpStreams reqProcedure streams)
  | .leftCross outer inner, left =>
    ((put [infoLeftCross, 2] left).andThen (dumpRsb reqProcedure outer)).andThen
      (dumpRsb reqProcedure inner)
  | .procedure prc, left =>
    (put [infoProcedure] left).andThen fun left =>
      if reqProcedure then put [] left else dumpProcedure prc left
  | .plain type, left => put [type.info] left

def dumpNext (reqProcedure : Bool) : NextRsb → Int → Dump
  | .none, left => put [] left
  | .some rsb, left => dumpRsb reqProcedure rsb left

def dumpStreams (reqProcedure : Bool) : Streams → Int → Dump
  | .nil, left => put [] left
  | .cons rsb rest, left => (dumpRsb reqProcedure rsb left).andThen (dumpStreams reqProcedure rest)

def streamCount : Streams → Nat
  | .nil => 0
  | .cons _ rest => streamCount rest + 1

def dumpProcedure : Procedure → Int → Dump
  | .missing, left => ⟨false, [], left⟩
  | .noFors prcName, left =>
    (take (5 + (nameBytes prcName).length) left).andThen
      (put ([rsbBegin, rsbRelation] ++ counted (nameBytes prcName) ++
        [rsbType, infoSequential, rsbEnd]))
  | .request reqProcedure reqFors, left => takePath (accessPath reqProcedure reqFors left) left

/-- The loop of `OPT_access_path`, from the last of the rsbs to the first. -/
def accessPath (reqProcedure : Bool) : Fors → Int → Path
  | .nil, left => ⟨put [] left, 0⟩
  | .cons entry rest, left =>
    let path := accessPath reqProcedure rest left
    if path.dump.ok then
      let d := dumpNext reqProcedure entry path.dump.left
      ⟨path.dump.andThen fun _ => d,
        if d.ok then path.returnLength + d.written.length else path.returnLength⟩
    else path

end

/-- `OPT_access_path`; without a vector of rsbs `*return_length` stays as it is. -/
def optAccessPath (reqProcedure : Bool) (reqFors : Option Fors) (bufferLength : Int)
    (returnLength : Nat) : Path :=
  match reqFors with
  | none => ⟨⟨false, [], bufferLength⟩, returnLength⟩
  | some fors =>
    let path := accessPath reqProcedure fors bufferLength
    { path with returnLength := ushort path.returnLength }

end InterBase.AccessPath
