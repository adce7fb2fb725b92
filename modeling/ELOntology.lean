import ELOntology.File.Tree
import ELOntology.Main
import ELOntology.Saturation.Trace
import ELOntology.Proofs.Index.Independence
import ELOntology.Proofs.Index.Interning
import ELOntology.Proofs.Saturation.Cone
import ELOntology.Proofs.Semantics.Entailment
import ELOntology.Proofs.Reasoner.Incremental
import ELOntology.Proofs.Reasoner.Diagram
import ELOntology.Proofs.Reasoner.Failure
import ELOntology.Proofs.Reasoner.Subsumption
import ELOntology.Proofs.Reasoner.Promises
import ELOntology.Proofs.Reasoner.Cleaning
import ELOntology.Proofs.Reasoner.Passes
import ELOntology.Proofs.Role.Binarization
import ELOntology.Proofs.Role.Exactness
import ELOntology.Proofs.Reasoner.Transparency
import ELOntology.Proofs.Workers.Quiescence
import ELOntology.Proofs.Workers.OneWorker
import ELOntology.Proofs.CommandLine.Saving
import ELOntology.Proofs.Syntax.RoundTrip
import ELOntology.Proofs.Saturation.Replay
import ELOntology.Proofs.Semantics.Names
import ELOntology.Proofs.Taxonomy.Instances
import ELOntology.Proofs.Reasoner.Realization
import ELOntology.Proofs.Reasoner.Unseen
import ELOntology.Proofs.Saturation.Recording
import ELOntology.Proofs.Reasoner.Trace
import ELOntology.Proofs.Index.ChainEdits
import ELOntology.Proofs.Index.HashConsing
import ELOntology.Proofs.Saturation.FactSet
import ELOntology.Proofs.Taxonomy.Framework
import ELOntology.Proofs.Reasoner.Tables
