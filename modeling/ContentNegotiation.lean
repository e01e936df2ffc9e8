import ContentNegotiation.Proofs.Negotiation
import ContentNegotiation.Proofs.ContentTypeText
import ContentNegotiation.Proofs.HeaderAnswers
import ContentNegotiation.Request
import ContentNegotiation.Proofs.OwnText
import ContentNegotiation.Proofs.NearestCode
import ContentNegotiation.Proofs.QualityText
import ContentNegotiation.Proofs.CanonicalText
import ContentNegotiation.Proofs.JoinedHeader
import ContentNegotiation.Proofs.Readings
import ContentNegotiation.Proofs.Places
import ContentNegotiation.Proofs.LosingTypes
import ContentNegotiation.Proofs.SkippedParts
import ContentNegotiation.Proofs.CaseBlindness
import ContentNegotiation.Proofs.Spacing
import ContentNegotiation.Proofs.SpacedHeader
import ContentNegotiation.Proofs.WalkRun
import ContentNegotiation.Proofs.FilteredWalk
import ContentNegotiation.Proofs.UnreadPart
import ContentNegotiation.Proofs.RequestAnswers
import ContentNegotiation.Proofs.ContentTypeReading
import ContentNegotiation.Proofs.ByteSlices
import ContentNegotiation.Proofs.LegacyMatching
import ContentNegotiation.Proofs.Broadening
import ContentNegotiation.Proofs.ParameterOrder
import ContentNegotiation.Proofs.Conservation
import ContentNegotiation.Proofs.Safety
