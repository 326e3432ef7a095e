import OsdLatency.Main
import OsdLatency.Proofs.Amounts.Hundredths
import OsdLatency.Proofs.Analysis.ByOsd
import OsdLatency.Proofs.CommandLine.Endings
import OsdLatency.Proofs.CommandLine.KeepsFiles
import OsdLatency.Proofs.Dump
import OsdLatency.Proofs.Dump.Lossless
import OsdLatency.Proofs.NearestRank
import OsdLatency.Proofs.Percentiles.Order
import OsdLatency.Proofs.Percentiles.Table
import OsdLatency.Proofs.Readers
import OsdLatency.Proofs.Share.Order
import OsdLatency.Proofs.Share.Range
import OsdLatency.Proofs.Share.Report
import OsdLatency.Proofs.Statistics.LineOrder
import OsdLatency.Proofs.Statistics.Mean
import OsdLatency.Proofs.Suspect.Counts
import OsdLatency.Proofs.Suspect.Indentation
import OsdLatency.Proofs.Suspect.NoEntries
import OsdLatency.Proofs.Suspect.Rounds
import OsdLatency.Proofs.Trace.Counts
import OsdLatency.Proofs.Trace.Truncation
