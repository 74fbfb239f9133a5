import CCppProjects.Xv6.Defs
import CCppProjects.Lib.Run
import CCppProjects.Xv6.Kalloc
import CCppProjects.Xv6.FreeList
import CCppProjects.Xv6.Queue
import CCppProjects.Xv6.Vm
import CCppProjects.Xv6.Trap
import CCppProjects.Xv6.Syscall
import CCppProjects.Lib.Share
import CCppProjects.Xv6.Memory
import CCppProjects.Xv6.MemSpec
import CCppProjects.Xv6.SwapSpec
import CCppProjects.Xv6.ForkSpec
import CCppProjects.Xv6.FaultSpec
import CCppProjects.Xv6.ExecSpec
import CCppProjects.Xv6.MachSpec
import CCppProjects.Xv6.FamilySpec
import CCppProjects.Xv6.StepSpec
import CCppProjects.Xv6.Transparency
import CCppProjects.Lib.Sat
import CCppProjects.Xv6.Record
import CCppProjects.Lib.Heap
import CCppProjects.Rest.Menu
import CCppProjects.Rest.Action
import CCppProjects.Rest.Seating
import CCppProjects.Rest.Invariant
import CCppProjects.Rest.Bill
import CCppProjects.Rest.Backup
import CCppProjects.Lib.Redo
import CCppProjects.Xv6.Log
import CCppProjects.Xv6.Reserve
import CCppProjects.Fs.Blocks
import CCppProjects.Fs.Content
import CCppProjects.Fs.Arrays
import CCppProjects.Fs.Dirs
import CCppProjects.Fs.Walk
import CCppProjects.Fs.Calls
import CCppProjects.Lib.Ring
import CCppProjects.Xv6.Pipe
import CCppProjects.Chat.Input
import CCppProjects.Chat.Output
import CCppProjects.Image.Permutation
import CCppProjects.Rest.Line
import CCppProjects.Xv6.Size
import CCppProjects.Xv6.UserPtr
import CCppProjects.Lib.Links
import CCppProjects.Xv6.Bio
import CCppProjects.Xv6.BioSpec
import CCppProjects.Xv6.OneTruth
import CCppProjects.Lib.Circle
import CCppProjects.Lib.Extents
import CCppProjects.Xv6.Umalloc
import CCppProjects.Xv6.UmallocSpec
import CCppProjects.Xv6.UserHeap
import CCppProjects.Xv6.Ptable
import CCppProjects.Xv6.Kill
import CCppProjects.Fs.Mkfs
import CCppProjects.Fs.Built
import CCppProjects.Lib.FirstMin
import CCppProjects.Xv6.Victim
import CCppProjects.Xv6.Follow
import CCppProjects.Xv6.Permission
import CCppProjects.Xv6.Overflow
import CCppProjects.Xv6.SwapCopy
import CCppProjects.Xv6.Loading
import CCppProjects.Xv6.Aging
import CCppProjects.Xv6.Sbrk
import CCppProjects.Xv6.Backup
import CCppProjects.Sh.Parse
import CCppProjects.Sh.Tokens
import CCppProjects.Sh.Accept
import CCppProjects.Lib.Pass
import CCppProjects.Xv6.Advance
import CCppProjects.Rest.Strip
import CCppProjects.Rest.Move
import CCppProjects.Lib.Scan
import CCppProjects.Rest.Choice
import CCppProjects.Lib.Lines
import CCppProjects.User.Grep
import CCppProjects.Chat.Decode
import CCppProjects.Chat.Disconnect
import CCppProjects.Rest.Config
import CCppProjects.Rest.Configured
import CCppProjects.Fs.Balance
import CCppProjects.Rest.Words
import CCppProjects.Lib.Chain
import CCppProjects.Labs.Shell
import CCppProjects.Labs.Encryptor
import CCppProjects.Labs.Virus
import CCppProjects.Xv6.Eager
import CCppProjects.Fs.Files
import CCppProjects.Fs.Exec
import CCppProjects.Fs.Runs
import CCppProjects.Fs.Counts
import CCppProjects.Fs.Links
import CCppProjects.Lib.Owes
import CCppProjects.Xv6.Sleep
import CCppProjects.Xv6.SleepCode
import CCppProjects.Xv6.SleepSpec
import CCppProjects.Xv6.Console
import CCppProjects.Xv6.Args
import CCppProjects.Xv6.ConsoleSpec
import CCppProjects.Xv6.ArgsSpec
import CCppProjects.Lib.Queue
import CCppProjects.Xv6.Ide
import CCppProjects.Xv6.IdeSpec
import CCppProjects.Sh.RunCmd
