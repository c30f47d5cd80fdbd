import Sectric.Lib.Loop
import Sectric.Lib.TreeReduce
import Sectric.Lib.Beaver
import Sectric.Block
import Sectric.Bytes
import Sectric.Hashing.Table
import Sectric.Hashing.Agreement
import Sectric.Hashing.Addresses
import Sectric.Oprf.VoleOprf
import Sectric.Equality.BlockEquality
import Sectric.Equality.BlockPacks
import Sectric.Equality.Triples
import Sectric.Equality.TripleThread
import Sectric.Psi.Stash
import Sectric.Psi.Merge
import Sectric.Psi.Hiding
import Sectric.Psi.Session
import Sectric.Psi.Transcript
import Sectric.Net.Receive
import Sectric.Triangle.Count
import Sectric.Psi.IntBounds
import Sectric.Triangle.TableFile
import Sectric.Triangle.Ids
import Sectric.Net.Accounting
import Sectric.Net.Timing
import Sectric.Net.Shortage
import Sectric.Equality.BatchLeaf
import Sectric.Psi.MaskTable
import Sectric.Psi.BinComparison
import Sectric.Psi.HintTable
import Sectric.Psi.Interleaving
import Sectric.Psi.PlainIntersection
import Sectric.Triangle.Driver
import Sectric.Net.BlockChannel
import Sectric.Net.Vectors
import Sectric.Equality.BatchInterleaving
import Sectric.Psi.CircuitInterleaving
