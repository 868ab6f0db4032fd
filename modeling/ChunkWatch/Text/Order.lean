import ChunkWatch.Text.Bytes

namespace ChunkWatch.Text

def before (s t : String) : Bool :=
  (Bytes.ofString s).map UInt8.toNat < (Bytes.ofString t).map UInt8.toNat

def insertInto (s : String) : List String → List String
  | [] => [s]
  | t :: ts =>
    if s = t then t :: ts
    else if before s t then s :: t :: ts
    else t :: insertInto s ts

def sorted (ss : List String) : List String := ss.foldr insertInto []

end ChunkWatch.Text
