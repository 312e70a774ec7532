import Ffilesystem.CaseSensitive
import Ffilesystem.Checked
import Ffilesystem.Containment
import Ffilesystem.CopyLinks
import Ffilesystem.DropSlash
import Ffilesystem.Executable
import Ffilesystem.FdHandle
import Ffilesystem.Fortran
import Ffilesystem.Home
import Ffilesystem.IsEmpty
import Ffilesystem.LexicallyNormal
import Ffilesystem.Log
import Ffilesystem.Memory
import Ffilesystem.MkdirCalls
import Ffilesystem.MkdirTwice
import Ffilesystem.OsString
import Ffilesystem.Permissions
import Ffilesystem.Realpath
import Ffilesystem.Reassembly
import Ffilesystem.Relative
import Ffilesystem.Reserved
import Ffilesystem.SafeName
import Ffilesystem.Shell
import Ffilesystem.Space
import Ffilesystem.Splitters
import Ffilesystem.Symlink
import Ffilesystem.Which
import Ffilesystem.WindowsNormal
