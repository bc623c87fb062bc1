import OptLrc.Arrival
import OptLrc.Bound
import OptLrc.Decode
import OptLrc.Degraded
import OptLrc.Honest
import OptLrc.Keeping
import OptLrc.Observed
import OptLrc.Placement
import OptLrc.Served
import OptLrc.Statuses
import OptLrc.LastBlock
import OptLrc.BlockKeys
import OptLrc.Config
import OptLrc.Layout
import OptLrc.Created
import OptLrc.FirstSet
import OptLrc.Plain
import OptLrc.Trace
import OptLrc.Isolated
import OptLrc.Races
import OptLrc.Dependent
import OptLrc.Flat
import OptLrc.Flags
import OptLrc.Vandermonde
import OptLrc.Erasures
import OptLrc.Benchmark
import OptLrc.Responses
import OptLrc.AzureCosts
import OptLrc.Ejected
