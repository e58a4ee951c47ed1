import MkfsUbifs.Media
import MkfsUbifs.Options
import MkfsUbifs.Host
import MkfsUbifs.State
import MkfsUbifs.Head
import MkfsUbifs.Compr
import MkfsUbifs.Emit
import MkfsUbifs.Index
import MkfsUbifs.IndexTree
import MkfsUbifs.Pipeline
import MkfsUbifs.EmitRun
import MkfsUbifs.Walk
import MkfsUbifs.Nodes
import MkfsUbifs.Attrs
import MkfsUbifs.Blocks
import MkfsUbifs.Steps
import MkfsUbifs.Image
import MkfsUbifs.Inums
import MkfsUbifs.Layout
import MkfsUbifs.Ledger
import MkfsUbifs.Leaves
import MkfsUbifs.Keys
import MkfsUbifs.Order
import MkfsUbifs.Dirs
import MkfsUbifs.Links
import MkfsUbifs.Refs
import MkfsUbifs.ReadBack
import MkfsUbifs.Stamps
