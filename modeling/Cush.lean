import Cush.Lib.Lts
import Cush.Lib.Program
import Cush.Lib.SlotTable
import Cush.Lib.FdTable
import Cush.Lib.ProcessLedger
import Cush.Lib.LinkHeap
import Cush.Lib.MergeRuns
import Cush.Lib.LongestMatch
import Cush.Lib.ShiftReduce
import Cush.Lib.Separation
import Cush.Lib.StoreParser
import Cush.LinkedList.Elem
import Cush.LinkedList.Ordered
import Cush.LinkedList.Verify.Operations
import Cush.LinkedList.Verify.Sort
import Cush.LinkedList.Verify.Ordered
import Cush.LinkedList.Verify.Store
import Cush.Ast
import Cush.Grammar.Scanner
import Cush.Grammar.Parse
import Cush.Grammar.Verify.Scan
import Cush.Grammar.Verify.Machine
import Cush.Grammar.Verify.Syntax
import Cush.Grammar.Verify.Read
import Cush.Grammar.Verify.Language
import Cush.Grammar.Verify.Lines
import Cush.Grammar.Verify.Background
import Cush.Grammar.Verify.Quoting
import Cush.Grammar.Verify.Words
import Cush.Ast.Memory
import Cush.Ast.Verify.Memory
import Cush.Ast.Verify.CommandLine
import Cush.Grammar.Memory
import Cush.Grammar.Verify.Memory
import Cush.Grammar.Verify.ParseMemory
import Cush.Spawn.FileActions
import Cush.Spawn.SetUp
import Cush.Spawn.Spawni
import Cush.Spawn.Run
import Cush.Spawn.Verify.Wiring
import Cush.Spawn.Verify.Redirects
import Cush.Spawn.Verify.Child
import Cush.Spawn.Verify.Spawnix
import Cush.Kernel
import Cush.Shell.Job
import Cush.Shell.State
import Cush.Shell.Step
import Cush.Shell.Verify.Printing
import Cush.Shell.Verify.Moves
import Cush.Shell.Verify.Children
import Cush.Shell.Verify.Context
import Cush.Shell.Verify.Books
import Cush.Shell.Verify.Counting
import Cush.Shell.Verify.Groups
import Cush.Shell.Verify.Killing
import Cush.Shell.Verify.Pipes
import Cush.Shell.Verify.Descriptors
import Cush.Shell.Verify.Lifetime
import Cush.Shell.Verify.Ownership
import Cush.Shell.Verify.Resume
import Cush.Shell.Verify.Table
import Cush.Shell.Verify.JobMemory
import Cush.Shell.Verify.Arguments
import Cush.Shell.Verify.History
import Cush.Shell.Verify.Terminations
import Cush.Shell.Verify.Notices
import Cush.Shell.Verify.Leaders
import Cush.Shell.Verify.Credits
import Cush.Shell.Verify.Foreground
import Cush.Shell.Verify.OneForeground
import Cush.Shell.Verify.Listing
import Cush.Shell.Verify.Terminal
import Cush.Shell.Verify.Access
import Cush.Shell.Verify.Sequence
import Cush.Shell.Verify.Settings
import Cush.Shell.Verify.Rest
import Cush.Shell.Verify.Spawning
import Cush.Shell.Verify.Ends
