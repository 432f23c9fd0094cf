import CS537.Bio.Runs
import CS537.Files.Wakeups
import CS537.Mlfq.Agreement
import CS537.Mlfq.Continuity
import CS537.Mlfq.Killed
import CS537.Mlfq.Reaping
import CS537.Mysh.Buffers
import CS537.Mysh.Myw
import CS537.Pool.Request
import CS537.Pool.Wakeups
import CS537.Shm.ArgChecks
import CS537.Shm.Contained
import CS537.Shm.ExecImage
import CS537.Shm.FailedExec
import CS537.Shm.FreeChain
import CS537.Shm.Layout
import CS537.Shm.OutOfMemory
import CS537.Shm.Overwritten
import CS537.Shm.SharedFrame
import CS537.Shm.Shmgetat
import CS537.Shm.StringRaces
import CS537.Shm.Teardown
import CS537.Stats.Admission
import CS537.Stats.Shutdown
import CS537.Varsort.Malformed
import CS537.Varsort.Sorts
