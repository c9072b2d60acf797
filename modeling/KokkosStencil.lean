import KokkosStencil.Flat.GaussSeidel
import KokkosStencil.Flat.CpuJacobi
import KokkosStencil.Flat.Bounds
import KokkosStencil.Flat.Channels
import KokkosStencil.View.Wave
import KokkosStencil.View.Schedule
import KokkosStencil.View.Fading
import KokkosStencil.View.Overflow
import KokkosStencil.View.Transfer
import KokkosStencil.View.Jacobi
import KokkosStencil.View.Dependence
import KokkosStencil.View.Channels
import KokkosStencil.Noise.Pipelines
import KokkosStencil.Noise.Stability
import KokkosStencil.Noise.OpenCv
import KokkosStencil.Test.Jacobi
import KokkosStencil.Kokkos.MDRangePolicy
import KokkosStencil.Kokkos.HostThreadTeam
import KokkosStencil.Kokkos.WorkStealing
import KokkosStencil.Run.Interleave
import KokkosStencil.Kokkos.ParallelFor
import KokkosStencil.Flat.Grey
import KokkosStencil.Flat.HostRun
import KokkosStencil.Mean.Settling
import KokkosStencil.Flat.Main
import KokkosStencil.Test.HostRun
import KokkosStencil.View.Threads
import KokkosStencil.Kokkos.CopyViews
import KokkosStencil.Run.Relocate
import KokkosStencil.View.HostMemory
import KokkosStencil.View.Main
