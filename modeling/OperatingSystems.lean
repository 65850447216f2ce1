import OperatingSystems.Boot.Mp
import OperatingSystems.Buf.Contents
import OperatingSystems.Console.Deadlock
import OperatingSystems.Console.Line
import OperatingSystems.Fs.Fileread
import OperatingSystems.Fs.Integrity
import OperatingSystems.Fs.Logged
import OperatingSystems.Fs.Resolve
import OperatingSystems.Fs.Shared
import OperatingSystems.Grep.Lines
import OperatingSystems.Ide.Refine
import OperatingSystems.Log.Crash
import OperatingSystems.Log.Reservation
import OperatingSystems.Mkfs.Boot
import OperatingSystems.Mkfs.Lookup
import OperatingSystems.Pipe.Wakeup
import OperatingSystems.Proc.InitLoop
import OperatingSystems.Proc.Interrupted
import OperatingSystems.Proc.Kill
import OperatingSystems.Proc.SleepLock
import OperatingSystems.Shell.Destination
import OperatingSystems.Shell.Missing
import OperatingSystems.Shell.Names
import OperatingSystems.Shell.Redirect
import OperatingSystems.Shell.Stream
import OperatingSystems.Shell.Tokens
import OperatingSystems.Vm.Allocuvm
import OperatingSystems.Vm.Copyuvm
import OperatingSystems.Vm.ExecImage
