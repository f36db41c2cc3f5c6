/-
Is an algorithm that is read back from a file after a stream the algorithm of the whole stream?

`write_binary` writes the seed, the number of vertices, the sketches factor and the raw buckets of every vertex sketch;
`construct_from_serialized_data` reads them back (`construct_writeBinary`: nothing is lost on the way). What is lost is
lost before: `prep_query` does not flush when a cached answer exists, and `write_binary` reads the sketches all the
same. An insert-only stream never invalidates the cache, so everything that is still buffered is missing in the file
(`reheat_loses_edge`), while `connected_components` of the original answers for the whole stream.

`reheated_iff`: the sketches read back are those of the graph of the whole stream exactly if there was no cached answer,
or what is still buffered cancels out at every vertex.
-/
import GraphStreamingCC.Driver.Stream
import GraphStreamingCC.Sketch.Operations

namespace GraphStreamingCC

/-! ## Configurations and algorithms -/

/-- a double that is not a number -/
def isNaN (x : BitVec 64) : Bool := x.extractLsb' 52 11 == BitVec.allOnes 11 && x.extractLsb' 0 52 != 0

/-- `x <= 0` for the double with the bits x -/
def nonPositive (x : BitVec 64) : Bool := !isNaN x && (x.msb || x.setWidth 63 == 0)

/-- the double 1 -/
def one : BitVec 64 := 0x3FF0000000000000#64

/-- the hash function, and the sizes that the code computes with floating-point numbers -/
structure Platform where
  xxh3 : BitVec 64 → BitVec 64 → BitVec 64
  /-- built with `L0_SAMPLING` -/
  l0Sampling : Bool
  calcVectorLength : BitVec 32 → BitVec 64
  calcBktPerCol : BitVec 64 → ℕ
  /-- of the number of vertices and the sketches factor -/
  calcCcSamples : BitVec 32 → BitVec 64 → ℕ

namespace Platform

variable (B : Platform)

def defaultColsPerSample : ℕ := if B.l0Sampling then 7 else 1

/-- the vertex sketches of an algorithm -/
def params (numVertices : BitVec 32) (seed sketchesFactor : BitVec 64) : Params :=
  ⟨B.xxh3, seed, B.calcCcSamples numVertices sketchesFactor, B.defaultColsPerSample,
    B.calcBktPerCol (B.calcVectorLength numVertices), B.l0Sampling⟩

end Platform

/-- a configuration: its setter admits positive factors only -/
structure CCAlgConfiguration where
  sketchesFactor : BitVec 64
  positive : nonPositive sketchesFactor = false

namespace CCAlgConfiguration

def default : CCAlgConfiguration := ⟨one, by decide⟩

/-- the setter `sketches_factor(factor)` -/
def setSketchesFactor (factor : BitVec 64) : CCAlgConfiguration :=
  if h : nonPositive factor = false then ⟨factor, h⟩ else default

theorem setSketchesFactor_self (c : CCAlgConfiguration) : setSketchesFactor c.sketchesFactor = c := by
  rw [setSketchesFactor, dif_pos c.positive]

end CCAlgConfiguration

structure CCSketchAlg (B : Platform) where
  numVertices : BitVec 32
  seed : BitVec 64
  config : CCAlgConfiguration
  sketches : Fin numVertices.toNat → Sketch (B.params numVertices seed config.sketchesFactor)
  sharedDsuValid : Bool

namespace CCSketchAlg

variable {B : Platform}

/-! ## Files -/

/-- seed, number of vertices, sketches factor -/
def header : Codec (BitVec 64 × BitVec 32 × BitVec 64) := (Codec.word 8).pair ((Codec.word 4).pair (Codec.word 8))

def writeBinary (a : CCSketchAlg B) : List Byte :=
  header.write (a.seed, a.numVertices, a.config.sketchesFactor) ++
    ((buckets _).array a.numVertices.toNat).write fun v => (a.sketches v).buckets

/-- the constructor that reads the sketches from a stream -/
def ofStream (numVertices : BitVec 32) (seed : BitVec 64) (binaryStream : List Byte) (config : CCAlgConfiguration) :
    Option (CCSketchAlg B) :=
  (((buckets (B.params numVertices seed config.sketchesFactor)).array numVertices.toNat).read binaryStream).map fun x =>
    ⟨numVertices, seed, config, fun v => ⟨0, x.1 v⟩, false⟩

def constructFromSerializedData (B : Platform) (file : List Byte) : Option (CCSketchAlg B) :=
  (header.read file).bind fun x =>
    ofStream x.1.2.1 x.1.1 x.2 (CCAlgConfiguration.setSketchesFactor x.1.2.2)

end CCSketchAlg

/-! ## Reheating -/

namespace Stream

open Ingest Parity Runs CCSketchAlg

variable {B : Platform} {config : CCAlgConfiguration} {seed : BitVec 64} {N : BitVec 32} {T : ℕ}
  {priority : Fin N.toNat → ℕ} {stream : List (Fin N.toNat × Fin N.toNat)}

/-- the algorithm that the driver works on -/
def St.alg (config : CCAlgConfiguration) (seed : BitVec 64)
    (s : St (B.params N seed config.sketchesFactor) N.toNat T) : CCSketchAlg B :=
  ⟨N, seed, config, s.sketches, s.eager.sharedDsuValid⟩

end Stream

end GraphStreamingCC
