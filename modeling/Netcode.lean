import Netcode.Library.Containers
import Netcode.Library.Runs
import Netcode.Library.Encodings
import Netcode.Library.RowOperations
import Netcode.Library.Combinations
import Netcode.Library.Incidence
import Netcode.Library.Equations
import Netcode.Fault
import Netcode.GaloisField
import Netcode.Gf16
import Netcode.Packets
import Netcode.Packetizer
import Netcode.PacketFormat
import Netcode.SquareMatrix
import Netcode.InvertMatrix.Rows
import Netcode.InvertMatrix
import Netcode.DetailDecoder
import Netcode.Encoder
import Netcode.Decoder
import Netcode.Channel
import Netcode.Delivery
import Netcode.Links.Stripping
import Netcode.Links.Dropping
import Netcode.Links
import Netcode.Peeling
import Netcode.Receiving
import Netcode.LinkInvariant
import Netcode.Failures
import Netcode.Cascade.Decoding
import Netcode.Cascade
import Netcode.AtMostOnce
import Netcode.InOrder.Sequence
import Netcode.InOrder.Decoding
import Netcode.InOrder.Keeping
import Netcode.InOrder
import Netcode.Stranding
import Netcode.Contents
import Netcode.Acknowledgement.Acknowledging
import Netcode.Acknowledgement
import Netcode.Regions
import Netcode.Encoding
import Netcode.InvertComplete
import Netcode.Window.Calls
import Netcode.Window
import Netcode.Reading
import Netcode.Totality
import Netcode.Rebuilding
import Netcode.FullDecoding.Solving
import Netcode.FullDecoding.Coefficients
import Netcode.FullDecoding.Flushing
import Netcode.FullDecoding
import Netcode.FaultyRepair
import Netcode.Integrity
import Netcode.Watermark.Keeping
import Netcode.Watermark.Calling
import Netcode.Watermark
import Netcode.Peeled
import Netcode.Balance.Links
import Netcode.Balance
import Netcode.Sound
import Netcode.Outline.Steps
import Netcode.Outline
import Netcode.Robustness.Decoding
import Netcode.Robustness.Receiving
import Netcode.Robustness
import Netcode.Parameters
import Netcode.Adaptation
import Netcode.Framing
import Netcode.Fields
import Netcode.Sizes
import Netcode.Dump
import Netcode.Waiting
import Netcode.Redelivery.Current
import Netcode.Redelivery
import Netcode.Yielding.Giving
import Netcode.Yielding.Quiet
import Netcode.Yielding
import Netcode.AckThreshold
import Netcode.Optimality.Adding
import Netcode.Optimality.Retaining
import Netcode.Optimality
import Netcode.Acknowledged.Held
import Netcode.Acknowledged
import Netcode.Sending
import Netcode.Schedule
import Netcode.Fifo.Logged
import Netcode.Fifo.Followed
import Netcode.Fifo
import Netcode.Passing.Passed
import Netcode.Passing.Proceeding
import Netcode.Passing
import Netcode.Progress.Withstanding
import Netcode.Progress
import Netcode.Ledger.Spent
import Netcode.Ledger.Given
import Netcode.Ledger
import Netcode.Streaming.Ordered
import Netcode.Streaming.Scattered
import Netcode.Streaming
import Netcode.Library.Merging
import Netcode.Tunnel.Peers
import Netcode.Tunnel
import Netcode.Tunnel.Directions
import Netcode.Tunnel.Ordered
import Netcode.Library.Simulation
import Netcode.Buffers
import Netcode.Buffers.Receiving
import Netcode.Buffers.Reading
import Netcode.Transcoder
import Netcode.Loss
import Netcode.Proxy.Link
import Netcode.Proxy
import Netcode.SourceForwarder
