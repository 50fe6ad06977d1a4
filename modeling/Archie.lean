import Archie.Lib.Run
import Archie.Lib.ByteLanes
import Archie.Engines
import Archie.Campaign.TriggerCorrect
import Archie.Campaign.Collector
import Archie.Campaign.WildcardHits
import Archie.Campaign.TriggerStart
import Archie.Campaign.FaultUnroll
import Archie.Campaign.TriggerMemo
import Archie.Campaign.WidthMasks
import Archie.Campaign.BackupHash
import Archie.Campaign.GoldenDiff
import Archie.Campaign.ShortLifespan
import Archie.Lib.Split
import Archie.Lib.Hexadecimal
import Archie.Lib.Growable
import Archie.Plugin.Memorydump
import Archie.Campaign.ProcessDumps
import Archie.Campaign.AsmText
import Archie.Campaign.MemInfoTb
import Archie.Campaign.Scheduler
import Archie.Plugin.TriggerVector
import Archie.Plugin.SingleFault
import Archie.Plugin.SetupConfig
import Archie.Plugin.Singlestep
import Archie.Plugin.Restore
import Archie.Plugin.MaxTb
import Archie.Plugin.FullMemDump
import Archie.Plugin.FirstTb
import Archie.Plugin.RegisterFault
import Archie.Plugin.TbFaulted
import Archie.Plugin.ExecOrder
import Archie.Plugin.MemInfo
import Archie.Plugin.TbInfo
import Archie.Plugin.ReadoutPipe
import Archie.Worker.Effect
import Archie.Worker.Undo
import Archie.Worker.FaultDumps
import Archie.Worker.LookAhead
import Archie.Worker.Expiry
import Archie.Worker.Injection
import Archie.Worker.InitialMemory
import Archie.Worker.Budget
import Archie.Worker.DumpKeys
import Archie.Campaign.ExperimentGroup
import Archie.Campaign.WorkerResults
import Archie.Campaign.ControllerReturn
import Archie.Campaign.Resume
import Archie.Campaign.CollectedTrace
import Archie.RelativeTrigger
import Archie.Analysis.DiagonalFault
