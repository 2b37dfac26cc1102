import KmerCount.Minimizer
import KmerCount.LocalTable
import KmerCount.Query
import KmerCount.Multimap
import KmerCount.GreedyBinning
import KmerCount.LptBound
import KmerCount.ReferenceLpt
import KmerCount.Distributed
import KmerCount.CountingMap
import KmerCount.SupermerMap
import KmerCount.FindOverlap
import KmerCount.MapQuery
import KmerCount.MultimapRuns
import KmerCount.ReductionMap
import KmerCount.TableFind
import KmerCount.TableRuns
import KmerCount.CountingRuns
import KmerCount.UniqueMap
