import Wincpp.Core.SharedPosition
import Wincpp.Core.Handles
import Wincpp.Patterns.Naive
import Wincpp.Patterns.Raita
import Wincpp.Patterns.Wildcards
import Wincpp.Patterns.Safety
import Wincpp.Patterns.Cursor
import Wincpp.Patterns.PatternText
import Wincpp.Memory.RegionWalk
import Wincpp.Memory.Find
import Wincpp.Memory.Reach
import Wincpp.Memory.Cut
import Wincpp.Memory.First
import Wincpp.Memory.Unread
import Wincpp.Memory.Contains
import Wincpp.Memory.Strings
import Wincpp.Memory.Protection
import Wincpp.Memory.ChangingInstances
import Wincpp.Memory.ProtectionOrder
import Wincpp.Memory.Flags
import Wincpp.Memory.Writes
import Wincpp.Modules.Exports
import Wincpp.Modules.Rtti
import Wincpp.Modules.CrossReferences
import Wincpp.Modules.Lookup
import Wincpp.Modules.Factory
import Wincpp.Modules.TypeDescriptors
import Wincpp.Modules.ObjectNames
import Wincpp.Modules.ExportTable
import Wincpp.Modules.ImageFormat
import Wincpp.Modules.ClassInstances
import Wincpp.Modules.Identity
import Wincpp.Windows.MainWindow
