import CLab.MacroExpansion
import CLab.UnitSafety
import CLab.InstructionEncoding
import CLab.DataSegment
import CLab.References
import CLab.ExternalFile
import CLab.EntryFile
import CLab.ErrorExcerpts
import CLab.MaximalWords
import CLab.Relexing
import CLab.MacroCollection
import CLab.FrontEndTermination
import CLab.CommandExecution
import CLab.FindSequence
import CLab.LineRecovery
import CLab.MemoryOverflow
import CLab.NumericRanges
import CLab.InstructionLegality
import CLab.SplicedTokens
import CLab.MacroSplicing
import CLab.SplicedSeams
import CLab.Rotate
import CLab.StringReplace
import CLab.IdentifierTable
import CLab.UnitLegality
import CLab.DriverRuns
import CLab.SourceText
import CLab.DriverOutcome
import CLab.SetSession
import CLab.Reports
import CLab.Spacing
import CLab.ReadBack
import CLab.Reruns
