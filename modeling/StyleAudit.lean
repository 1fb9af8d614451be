import StyleAudit.Main
import StyleAudit.Server
import StyleAudit.Cache.Ideal
import StyleAudit.Proofs.CacheEntries
import StyleAudit.Proofs.Cancellation
import StyleAudit.Proofs.Coherence
import StyleAudit.Audit.Weave
import StyleAudit.Proofs.Transparency
import StyleAudit.Proofs.Interleaving
import StyleAudit.Proofs.ReferencePlaces
import StyleAudit.Proofs.Asides
import StyleAudit.Proofs.Cuts
import StyleAudit.Proofs.DeclarationPlaces
import StyleAudit.Proofs.NestedRules
import StyleAudit.Bytes.Basic
import StyleAudit.Bytes.Stylesheet
import StyleAudit.Bytes.Reference
import StyleAudit.Proofs.ByteMask
import StyleAudit.Proofs.ByteTokens
import StyleAudit.Proofs.ByteStylesheet
import StyleAudit.Proofs.ByteScript
import StyleAudit.Proofs.ByteValues
import StyleAudit.Proofs.BytePlaceholders
import StyleAudit.Proofs.ByteNames
import StyleAudit.Proofs.ByteReferences
import StyleAudit.Proofs.IdealCache
import StyleAudit.Proofs.EscapedNames
import StyleAudit.Proofs.Verdicts
import StyleAudit.Proofs.LinePositions
import StyleAudit.Proofs.ReportedPlaces
import StyleAudit.Proofs.StableSort
import StyleAudit.Proofs.CacheOrder
import StyleAudit.Proofs.ClearedReports
import StyleAudit.Proofs.FileNames
import StyleAudit.Proofs.GlobEndings
import StyleAudit.Proofs.StyleFiles
import StyleAudit.Server.Run
import StyleAudit.Proofs.MaskedText
import StyleAudit.Proofs.BodyNames
import StyleAudit.Proofs.Truncation
import StyleAudit.Proofs.Publications
import StyleAudit.Proofs.Evictions
import StyleAudit.Proofs.QuotedSelectors
import StyleAudit.Proofs.SharedPlaces
import StyleAudit.Proofs.EmbeddedStyles
import StyleAudit.Proofs.KnownNames
import StyleAudit.Proofs.ClassWords
import StyleAudit.Proofs.FailedLoads
import StyleAudit.Proofs.LiteralArguments
import StyleAudit.Proofs.WrittenIdioms
import StyleAudit.Proofs.PathParts
import StyleAudit.Proofs.LinkSuffixes
import StyleAudit.Proofs.LinkPaths
import StyleAudit.Proofs.GlobDirectories
import StyleAudit.Proofs.Relocation
import StyleAudit.Proofs.LineOrder
import StyleAudit.Proofs.CompoundSelectors
import StyleAudit.Proofs.CommaBranches
import StyleAudit.Proofs.OpenTags
import StyleAudit.Proofs.StyleElements
import StyleAudit.Proofs.TagAttributes
import StyleAudit.Proofs.StylesheetLinks
import StyleAudit.Proofs.NestedScripts
import StyleAudit.Proofs.RuleBodies
