import TextGrammar.Folder
import TextGrammar.Generator
import TextGrammar.Output.Limited
import TextGrammar.Parsing.Outcome
import TextGrammar.Program.Emission.Length
import TextGrammar.Program.Listing
import TextGrammar.Script.Engine
import TextGrammar.Text.Utf8.RoundTrip
import TextGrammar.Proofs.Meaning
import TextGrammar.Proofs.PoolDraws
import TextGrammar.Proofs.MachineOutcomes
import TextGrammar.Proofs.Placement
import TextGrammar.Proofs.SampledNumbers
import TextGrammar.Proofs.Simulation
import TextGrammar.Proofs.Compiled
import TextGrammar.Proofs.RunDerivations
import TextGrammar.Proofs.ComputingEvaluators
import TextGrammar.Proofs.GeneratedTexts
import TextGrammar.Proofs.StepRequests
import TextGrammar.Proofs.StepEffects
import TextGrammar.Proofs.RelatedRuns
import TextGrammar.Proofs.RelatedAttempts
import TextGrammar.Proofs.SinkSnapshots
import TextGrammar.Proofs.AppendedOutput
import TextGrammar.Proofs.LiveExpressions
import TextGrammar.Proofs.WriteOnlyPrograms
import TextGrammar.Proofs.Delivery
import TextGrammar.Proofs.MemorySinks
import TextGrammar.Proofs.EntropyUse
import TextGrammar.Proofs.Termination
import TextGrammar.Program.Assembly
import TextGrammar.Proofs.LabelAddresses
import TextGrammar.Proofs.CloseFaults
import TextGrammar.Proofs.SegmentConfinement
import TextGrammar.Proofs.UnreadEntropy
import TextGrammar.Proofs.IndependentAttempts
import TextGrammar.Proofs.SinkReplacement
import TextGrammar.Proofs.LimitedOutput
import TextGrammar.Proofs.ShortWrites
import TextGrammar.Proofs.ParserProgress
import TextGrammar.Proofs.Lexemes
import TextGrammar.Proofs.Precedence
import TextGrammar.Proofs.Spellings
import TextGrammar.Proofs.GrammarPhrases
import TextGrammar.Proofs.Escapes
import TextGrammar.Proofs.Numerals
import TextGrammar.Proofs.Printing
import TextGrammar.Proofs.RoundTrip
import TextGrammar.Proofs.Decimals
import TextGrammar.Proofs.Rounding
import TextGrammar.Proofs.FloatUnits
import TextGrammar.Proofs.Floats
import TextGrammar.Proofs.NormalForms
import TextGrammar.Proofs.Weights
import TextGrammar.Proofs.LowestExpansions
import TextGrammar.Proofs.RunsWithoutEntropy
import TextGrammar.Proofs.BlockEnds
import TextGrammar.Proofs.Integers
import TextGrammar.Proofs.FloatOrder
import TextGrammar.Proofs.Comparisons
import TextGrammar.Proofs.RelatedParsers
import TextGrammar.Proofs.BlockQuotes
import TextGrammar.Proofs.ExtendedStatements
import TextGrammar.Proofs.JoinedBlocks
import TextGrammar.Proofs.BlockSequencing
import TextGrammar.Proofs.SinkHistories
import TextGrammar.Proofs.BufferedOutput
import TextGrammar.Proofs.StreamedOutput
import TextGrammar.Proofs.FloatProducts
import TextGrammar.Proofs.Ranges
import TextGrammar.Proofs.PoolDepletion
import TextGrammar.Proofs.Locations
import TextGrammar.Proofs.ListingLines
import TextGrammar.Proofs.SpacedTokens
import TextGrammar.Proofs.TokenPlaces
import TextGrammar.Proofs.Tokens
import TextGrammar.Proofs.GrammarLayouts
import TextGrammar.Proofs.OffsetIndependence
import TextGrammar.Proofs.LayoutIndependence
import TextGrammar.Program.Interner
import TextGrammar.Proofs.Interning
import TextGrammar.Proofs.ExpressionCode
import TextGrammar.Proofs.TextOrigins
