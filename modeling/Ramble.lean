import Ramble.Oracle
import Ramble.Subsets
import Ramble.SetUtils
import Ramble.Scan
import Ramble.Names
import Ramble.Parallel
import Ramble.Batches
import Ramble.Driver
import Ramble.HostNames
