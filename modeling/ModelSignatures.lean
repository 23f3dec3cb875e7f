import ModelSignatures.Descriptor.Step
import ModelSignatures.Main
import ModelSignatures.Proofs.Token.Lossless
import ModelSignatures.Proofs.Signature.Content
import ModelSignatures.Proofs.Signature.Acceptance
import ModelSignatures.Proofs.Signature.ViablePrefix
import ModelSignatures.Proofs.Signature.Comments
import ModelSignatures.Proofs.Generator.Report
import ModelSignatures.Proofs.Descriptor.Respelling
import ModelSignatures.Proofs.Signature.ErrorPositions
import ModelSignatures.Proofs.Signature.Concatenation
import ModelSignatures.Proofs.CommandLine.Generate
import ModelSignatures.Proofs.Signature.NormalForm
import ModelSignatures.Proofs.Signature.WrittenComments
import ModelSignatures.Proofs.Signature.TypePlaces
import ModelSignatures.Proofs.Signature.Arrangement
import ModelSignatures.Proofs.Descriptor.Building
import ModelSignatures.Proofs.Generator.Relevance
import ModelSignatures.Proofs.Generator.Rearrangement
import ModelSignatures.Proofs.Descriptor.QualifiedName
import ModelSignatures.Proofs.ConstantPath.Substitution
import ModelSignatures.Proofs.Generator.Location
import ModelSignatures.Proofs.Signature.Progress
