import Mp2mp.Bgpd.AttrIntern
import Mp2mp.Bgpd.BestPath
import Mp2mp.Bgpd.DampLists
import Mp2mp.Bgpd.Ecommunity
import Mp2mp.Bgpd.Encap
import Mp2mp.Bgpd.PrefixCount
import Mp2mp.Lde.Advertised
import Mp2mp.Lde.Arrival
import Mp2mp.Lde.Handshake
import Mp2mp.Lde.Teardown
import Mp2mp.Ldpd.Masks
import Mp2mp.Ldpd.System
import Mp2mp.Ldpe.Adjacency
import Mp2mp.Ldpe.Bounds
import Mp2mp.Ldpe.Established
import Mp2mp.Lib.Buffer
import Mp2mp.Lib.Checksum
import Mp2mp.Lib.PrefixListVty
import Mp2mp.Lib.RouteIter
import Mp2mp.Ospfd.Retransmit
import Mp2mp.Ospfd.SummaryId
import Mp2mp.Zebra.Kernel
import Mp2mp.Zebra.MetaQueue
import Mp2mp.Zebra.StaticLsp
