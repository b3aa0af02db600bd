import HybridMemory.Lib.Registry
import HybridMemory.HybridSim.SyncAll
import HybridMemory.HybridSim.CacheFile
import HybridMemory.HybridSim.Prefetches
import HybridMemory.NVMain.TranslationCache
import HybridMemory.NVMain.ActivationWindow
import HybridMemory.NVMain.DataBus
import HybridMemory.NVMain.RefreshRounds
import HybridMemory.NVMain.FineNVMain
import HybridMemory.NVMain.Hooks
import HybridMemory.NVMain.Endurance
import HybridMemory.NVMain.RankQueues
import HybridMemory.NVMain.WriteDrain
import HybridMemory.NVMain.Checkpoint
import HybridMemory.NVMain.VictimChoice
import HybridMemory.NVMain.RBLADRAMCache
import HybridMemory.NVMain.RoundRobin
import HybridMemory.Ptlsim.SnoopingBus
import HybridMemory.Ptlsim.SplitPhaseBus
import HybridMemory.Ptlsim.NVMainCompletions
import HybridMemory.Ptlsim.MemoryController
import HybridMemory.Ptlsim.CacheController
import HybridMemory.Ptlsim.AssociativeArray
import HybridMemory.Ptlsim.BusArbitration
import HybridMemory.DRAMSim.AddressMapping
import HybridMemory.DRAMSim.ClockDomain
import HybridMemory.Ptlsim.Interlocks
import HybridMemory.NVDIMMSim.GarbageCollection
import HybridMemory.NVDIMMSim.Controller
import HybridMemory.NVDIMMSim.Bookkeeping
import HybridMemory.NVMain.StaticMigrator
import HybridMemory.NVMain.CacheGeometry
import HybridMemory.NVMain.CacheSets
import HybridMemory.NVMain.CacheCommands
import HybridMemory.NVMain.CellPulses
import HybridMemory.NVMain.FlipDecoding
import HybridMemory.NVMain.BankRuns
import HybridMemory.NVMain.RankPower
import HybridMemory.NVMain.ActWait
import HybridMemory.NVMain.WriteBack
import HybridMemory.NVMain.Capacities
