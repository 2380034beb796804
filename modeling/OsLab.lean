import OsLab.Aryan.EdfEnds
import OsLab.Aryan.Mlfq
import OsLab.Aryan.RoundRobin
import OsLab.Bhanu.Allotment
import OsLab.Bhanu.EdfOptimal
import OsLab.Bhanu.Metrics
import OsLab.Bhanu.Starvation
import OsLab.Ayush.LotteryDispatch
import OsLab.Vijay.Lottery
import OsLab.Vijay.RmsTrace
import OsLab.Kernel.MessageQueueBoot
import OsLab.Kernel.SignalImage
import OsLab.Kernel.SignalReturn
import OsLab.Kernel.SignalSet
import OsLab.Kernel.SignalRace
import OsLab.Kernel.KillReach
import OsLab.Kernel.Psinfo
import OsLab.Kernel.SemaphoreSafety
import OsLab.Kernel.Reaping
import OsLab.Kernel.Join
import OsLab.Kernel.KillWait
import OsLab.Kernel.FrameLeak
import OsLab.Kernel.CloneAtomic
import OsLab.Kernel.GetcwdTransaction
import OsLab.Kernel.GetcwdStale
import OsLab.Kernel.LogRecovery
import OsLab.Kernel.FileContent
import OsLab.Kernel.BufferContent
import OsLab.Kernel.PipeFile
import OsLab.Kernel.Sleeplock
import OsLab.Lotteries
import OsLab.Shajith.LotterySurvives
import OsLab.Shajith.MlfqSurvives
import OsLab.User.UmallocSafety
import OsLab.User.GrepLines
