import Catseq.StableSort
import Catseq.Arena
import Catseq.Algebra
import Catseq.Unfolding
import Catseq.Compiler
import Catseq.Incremental
import Catseq.Path
import Catseq.Program.Data
import Catseq.Program.Arena
import Catseq.Overflow
import Catseq.Program.Chain
import Catseq.Traversal
import Catseq.Cache
import Catseq.Context
