import VirtualMemorySimulation.Benchmark.Verified
import VirtualMemorySimulation.MemoryManager.Alignment
import VirtualMemorySimulation.MemoryManager.StaleCopies
import VirtualMemorySimulation.Scheduler.BlockedTick
import VirtualMemorySimulation.Scheduler.Initialisation
import VirtualMemorySimulation.Scheduler.InterruptedEnqueue
import VirtualMemorySimulation.Scheduler.Promotion
import VirtualMemorySimulation.Scheduler.QueueCalls
import VirtualMemorySimulation.Scheduler.RotaRuns
import VirtualMemorySimulation.Scheduler.SignalOutcomes
import VirtualMemorySimulation.Scheduler.States
import VirtualMemorySimulation.Scheduler.SwitchRate
import VirtualMemorySimulation.Scheduler.WakeUps
import VirtualMemorySimulation.Storage.OwnPages
