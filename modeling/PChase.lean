import PChase.CInt
import PChase.ByteMemory
import PChase.RegisterMachine
import PChase.CountLoop
import PChase.NextWalk
import PChase.AffineCycle
import PChase.Experiment
import PChase.DomainMap
import PChase.ParseArgs
import PChase.Accepted
import PChase.MemInit
import PChase.Geometry
import PChase.RandomCoverage
import PChase.CoverageCondition
import PChase.FormedLinks
import PChase.RandomBounds
import PChase.StridedBounds
import PChase.Chase
import PChase.PointerRings
import PChase.ChaseRun
import PChase.ChaseReturns
import PChase.StridedRing
import PChase.CacheLines
import PChase.MirrorRings
import PChase.LapRounds
import PChase.ChasePointers
import PChase.ChaseSimulation
import PChase.EmittedCalls
import PChase.LineAccesses
import PChase.ChaseBounds
import PChase.ChaseInside
import PChase.MapGroups
import PChase.MapReading
import PChase.MapText
import PChase.MapRoundTrip
import PChase.BarrierProgram
import PChase.RunThreads
import PChase.RunAlignment
import PChase.BarriersAligned
import PChase.Calibration
import PChase.CalibrationRuns
import PChase.CalibrationCondition
import PChase.StridedCounts
import PChase.CountingLoops
import PChase.StartRoutine
import PChase.Interleaving
import PChase.StagedThreads
import PChase.SwitchedGenerator
import PChase.InitThreads
import PChase.ReproducibleDraws
import PChase.InitEnds
import PChase.RunEnds
import PChase.CalibrationEnds
import PChase.CalibrationGrowth
import PChase.WorkCount
import PChase.BenchCalls
import PChase.ProgramEnds
import PChase.CountedRuns
import PChase.LastWrite
import PChase.CommandLine
import PChase.CommandErrors
import PChase.LaterOptions
import PChase.ExactNumbers
import PChase.DomainResidues
import PChase.SizeRounding
import PChase.Coherence
import PChase.CsvReader
import PChase.FieldLimit
import PChase.CsvWriter
import PChase.Output
import PChase.CsvColumns
import PChase.ConvertScript
import PChase.ConvertedReport
import PChase.MemoryScript
import PChase.RecordedDurations
import PChase.Timer
import PChase.ZeroNumbers
import PChase.MapScanner
