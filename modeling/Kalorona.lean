import Kalorona.Kernel.NestedLocks
import Kalorona.Utilities.BitmapSets
import Kalorona.Kernel.BootArguments
import Kalorona.Console.PrintRoundTrip
import Kalorona.Utilities.QsortTyped
import Kalorona.Device.MemoryWalk
import Kalorona.Device.DeviceLookup
import Kalorona.Device.UartStart
import Kalorona.Memory.BuddyComplete
import Kalorona.Memory.Handover
import Kalorona.Memory.BootmemInit
import Kalorona.Memory.Lifecycle
import Kalorona.Memory.KmemClasses
import Kalorona.Memory.MapFailure
import Kalorona.Memory.Stale
import Kalorona.Proc.Reap
import Kalorona.Proc.Sleeplock
import Kalorona.Proc.Wakeup
import Kalorona.Proc.ExitWait
import Kalorona.Proc.LockDepth
import Kalorona.Proc.StackFault
import Kalorona.Proc.RecordStale
import Kalorona.Proc.CreateFailure
import Kalorona.Proc.Exit
import Kalorona.Proc.SbrkBreak
import Kalorona.Proc.ProcLinks
import Kalorona.Proc.TrapCode
