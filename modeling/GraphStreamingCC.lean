import GraphStreamingCC.Boruvka.Bounds
import GraphStreamingCC.Boruvka.Connectivity
import GraphStreamingCC.Boruvka.DoubleSegments
import GraphStreamingCC.Boruvka.Emulation
import GraphStreamingCC.Driver.Readers
import GraphStreamingCC.Driver.Serialize
import GraphStreamingCC.Driver.Sleep
import GraphStreamingCC.Dsu.Alone
import GraphStreamingCC.Dsu.Sequential
import GraphStreamingCC.Dsu.WaitFree
import GraphStreamingCC.Ingest.CachedQueries
import GraphStreamingCC.Ingest.Frozen
import GraphStreamingCC.Query.Usable
import GraphStreamingCC.Session.Account
import GraphStreamingCC.Session.Alone
import GraphStreamingCC.Session.ComponentSets
import GraphStreamingCC.Session.CrewRuns
import GraphStreamingCC.Session.InsertOnly
import GraphStreamingCC.Session.NoFalseAlarm
import GraphStreamingCC.Sketch.Bounds
import GraphStreamingCC.Sketch.Builds
import GraphStreamingCC.Sketch.Exhaustive
import GraphStreamingCC.Sketch.Pairing
import GraphStreamingCC.Verifier.Histories
