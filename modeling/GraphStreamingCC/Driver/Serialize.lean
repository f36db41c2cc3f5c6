/-
The serialization round trip of the algorithm (src/cc_sketch_alg.cpp: `write_binary`, `construct_from_serialized_data`).

The file holds a header of three fields and the raw buckets behind it; the reader computes the sizes of the sketches
from the header. Of the configuration passed at load time only the sketches factor is replaced, by the setter, which
might reject it. `construct` returns the algorithm together with the bytes left in the stream, so that a round trip says
how far it read.
-/
import GraphStreamingCC.Driver.Reheat

namespace GraphStreamingCC

/-- a configuration with all its fields -/
structure Configuration extends CCAlgConfiguration where
  diskDir : String
  batchFactor : BitVec 64

/-- `config.sketches_factor(factor)` -/
def Configuration.setFactor (config : Configuration) (factor : BitVec 64) : Configuration :=
  { config with toCCAlgConfiguration := .setSketchesFactor factor }

/-- an algorithm with its whole configuration and both flags of the cache -/
structure Alg (B : Platform) extends CCSketchAlg B where
  diskDir : String
  batchFactor : BitVec 64
  dsuValid : Bool

namespace Alg

variable {B : Platform}

/-- the constructor that reads the sketches from a stream, with the bytes it leaves -/
def ofBinaryStream (numVertices : BitVec 32) (seed : BitVec 64) (binaryStream : List Byte) (config : Configuration) :
    Option (Alg B × List Byte) :=
  (((CCSketchAlg.buckets (B.params numVertices seed config.sketchesFactor)).array numVertices.toNat).read binaryStream).map
    fun x =>
      ({ numVertices, seed
         config := config.toCCAlgConfiguration
         sketches := fun v => ⟨0, x.1 v⟩
         sharedDsuValid := false
         diskDir := config.diskDir
         batchFactor := config.batchFactor
         dsuValid := false }, x.2)

/-- `construct_from_serialized_data(file, config)`, with the bytes of the file that are not read -/
def construct (B : Platform) (config : Configuration) (file : List Byte) : Option (Alg B × List Byte) :=
  (CCSketchAlg.header.read file).bind fun x => ofBinaryStream x.1.2.1 x.1.1 x.2 (config.setFactor x.1.2.2)

/-- the configuration passed does not matter for the sketches -/
theorem construct_eq (config : Configuration) (file : List Byte) :
    (construct B config file).map (fun x => x.1.toCCSketchAlg) = CCSketchAlg.constructFromSerializedData B file := by
  rw [construct, CCSketchAlg.constructFromSerializedData, Option.map_bind]
  refine congrArg _ (funext fun x => ?_)
  rw [Function.comp_apply, ofBinaryStream, CCSketchAlg.ofStream, Option.map_map]
  rfl

/-- what the file gives back of an algorithm -/
def reloaded (a : Alg B) (config : Configuration) : Alg B :=
  { a with
    sketches := fun v => ⟨0, (a.sketches v).buckets⟩
    sharedDsuValid := false
    diskDir := config.diskDir
    batchFactor := config.batchFactor
    dsuValid := false }

/-- **Round trip.** Whatever configuration is passed, the file gives back the number of vertices, the seed, the sketches
factor and all buckets, with sample indices 0 and an invalid cache; reading leaves exactly what stands behind the bytes
written; and the algorithm read back writes the same bytes. -/
theorem roundTrip (a : Alg B) (config : Configuration) (rest : List Byte) :
    construct B config (a.writeBinary ++ rest) = some (a.reloaded config, rest) ∧
      ((a.reloaded config).numVertices = a.numVertices ∧ (a.reloaded config).seed = a.seed ∧
        (a.reloaded config).config.sketchesFactor = a.config.sketchesFactor) ∧
      (a.reloaded config).writeBinary = a.writeBinary ∧
      (∀ v, (a.reloaded config).sketches v = ⟨0, (a.sketches v).buckets⟩) ∧
      (a.reloaded config).dsuValid = false ∧ (a.reloaded config).sharedDsuValid = false := by
  refine ⟨?_, ⟨rfl, rfl, rfl⟩, rfl, fun _ => rfl, rfl, rfl⟩
  have hbody := ((CCSketchAlg.buckets (B.params a.numVertices a.seed a.config.sketchesFactor)).array
    a.numVertices.toNat).read_write (fun v => (a.sketches v).buckets) rest
  rw [construct, CCSketchAlg.writeBinary, List.append_assoc, CCSketchAlg.header.read_write, Option.bind_some,
    Configuration.setFactor, CCAlgConfiguration.setSketchesFactor_self, ofBinaryStream, hbody, Option.map_some]
  rfl

end Alg

end GraphStreamingCC
